import NginxConf.Proofs.Arena.WellFormed
import NginxConf.Proofs.Parse.Semicolons
import NginxConf.Proofs.Parse.Storable

/-!
# When a parse is total

The machine parses a text, and stores the tree that the rules build, exactly if all that it has to
store has 32 bits (`Machine.parse_total`): the places where nodes begin among the events, and the
numbers of the arena. A text of less than 2 ^ 32 bytes can be too much for either of the two
(`Machine.parse_semicolons`, `Machine.parse_newlines`).

Where a mark is too large, the node begun there gets no kind, and an event that ends it is left over.
So there is no tree even if the machine loses no mark: a builder would have to finish more nodes than
it starts.
-/

namespace NginxConf

/-- The parse with its tree in an arena. -/
def Parse.stored (p : Parse) : StoredParse := ⟨.ofTree p.tree, p.diagnostics⟩

/-! ## Nodes started and finished -/

namespace BuildCall

/-- Whether a call starts a node. -/
def isStart : BuildCall → Bool
  | start _ => true
  | _ => false

/-- Whether a call finishes a node. -/
def isFinish : BuildCall → Bool
  | finish => true
  | _ => false

end BuildCall

mutual

/-- Each node that is started is finished. -/
theorem countP_treeCalls : (t : Tree Token) →
    (treeCalls t).countP BuildCall.isStart = (treeCalls t).countP BuildCall.isFinish
  | .leaf _ => rfl
  | .node kind children => by
    rw [treeCalls, List.countP_cons, List.countP_cons, List.countP_append, List.countP_append,
      countP_forestCalls children]
    simp [BuildCall.isStart, BuildCall.isFinish]

theorem countP_forestCalls : (ts : List (Tree Token)) →
    (forestCalls ts).countP BuildCall.isStart = (forestCalls ts).countP BuildCall.isFinish
  | [] => rfl
  | t :: ts => by
    rw [forestCalls, List.countP_append, List.countP_append, countP_treeCalls t,
      countP_forestCalls ts]

end

namespace ParseEvent

/-- The nodes that begin are those that a builder starts, and those without a kind. -/
theorem countP_isStart (events : List ParseEvent) : events.countP isStart
    = (events.filterMap call?).countP BuildCall.isStart + events.count (.start none) := by
  rw [List.countP_filterMap]
  induction events with
  | nil => rfl
  | cons e events ih =>
    rw [List.countP_cons, List.countP_cons, List.count_cons, ih]
    match e with
    | start none => simp [isStart, call?, Nat.add_assoc]
    | start (some kind) => simp [isStart, call?, BuildCall.isStart, Nat.add_right_comm]
    | token t => simp [isStart, call?, BuildCall.isStart, Token.call]
    | finish => simp [isStart, call?, BuildCall.isStart]

theorem countP_isFinish (events : List ParseEvent) : events.countP isFinish
    = (events.filterMap call?).countP BuildCall.isFinish := by
  rw [List.countP_filterMap]
  congr 1
  funext e
  match e with
  | start none | start (some _) | token _ | finish => rfl

/-- Where the kinds of nodes do not matter, events can be counted without them. -/
theorem countP_blank {p : ParseEvent → Bool} (hp : ∀ e, p e.blank = p e)
    {events events' : List ParseEvent} (h : events.map blank = events'.map blank) :
    events.countP p = events'.countP p := by
  have hcount := congrArg (List.countP p) h
  rw [List.countP_map, List.countP_map] at hcount
  rwa [show p ∘ blank = p from funext hp] at hcount

end ParseEvent

/-! ## Events of a file -/

/-- The tree of a text with its tokens in their places. -/
def placedTree (s : Text) : Tree PlacedToken :=
  .node .sourceFile ((fileOutcome s).trees ++ [.leaf (tokenize s).stop])

theorem map_call_placedTree (s : Text) :
    (placedTree s).steps.map ParseEvent.call? = (parse s).tree.calls.map some := by
  rw [Tree.map_call_steps, placedTree, SyntaxTree.calls, parse_tree]
  simp [Tree.map, Node.toTree]

theorem calls_placedTree (s : Text) :
    (placedTree s).steps.filterMap ParseEvent.call? = (parse s).tree.calls := by
  have hcalls := congrArg (List.filterMap id) (map_call_placedTree s)
  rwa [List.filterMap_map, List.filterMap_map, Function.id_comp, Function.id_comp,
    List.filterMap_some] at hcalls

/-- Nodes are started by the same calls as they begin among the events. -/
theorem exists_start_iff {s : Text} {i : Nat} :
    (∃ kind, (parse s).tree.calls[i]? = some (.start kind)) ↔
      ∃ kind, (placedTree s).steps[i]? = some (.start kind) := by
  have hcall := congrArg (·[i]?) (map_call_placedTree s)
  simp only [List.getElem?_map] at hcall
  constructor
  · rintro ⟨kind, hi⟩
    rw [hi] at hcall
    obtain ⟨e, he, hstart⟩ := Option.map_eq_some_iff.1 hcall
    match e with
    | .start kind' => exact ⟨kind', he⟩
    | .token t | .finish => cases hstart
  · rintro ⟨kind, hi⟩
    rw [hi] at hcall
    obtain ⟨c, hc, hstart⟩ := Option.map_eq_some_iff.1 hcall.symm
    match kind with
    | none => cases hstart
    | some kind =>
      cases hstart
      exact ⟨_, hc⟩

namespace Machine

variable {s : Text} {m n : Machine}

/-- The machine that has begun the node of a file. -/
def begun (s : Text) : Machine := (new (tokenize s).tokens).start

/-- A machine that has read a file and its end. -/
def ended (stop : PlacedToken) (m : Machine) : Machine :=
  { m with events :=
      (m.events ++ [ParseEvent.token stop]).set 0 (.start (some .sourceFile)) ++ [.finish] }

theorem events_ended (s : Text) :
    (((begun s).after (fileOutcome s)).ended (tokenize s).stop).events = (placedTree s).steps := by
  simp [ended, after, begun, start, new, placedTree, Tree.steps, Tree.forestSteps_append,
    Tree.forestSteps]

theorem Like.ended (h : n.Like m) (stop : PlacedToken) : (n.ended stop).Like (m.ended stop) where
  rest_eq := h.rest_eq
  reports_eq := h.reports_eq
  depth_eq := h.depth_eq
  readEnd_eq := h.readEnd_eq
  events_eq := by simp only [Machine.ended, List.map_append, List.map_set, h.events_eq]

/-- At the end, the node of the file gets its kind, and no other one. -/
theorem NamedBy.ended (m : Machine) (stop : PlacedToken) : NamedBy mark32 m (m.ended stop) := by
  have htoken : NamedBy mark32 m { m with events := m.events ++ [.token stop] } := by
    refine fun i kind hi => .inl ?_
    rw [List.getElem?_append] at hi
    split at hi
    · exact hi
    · simp [List.getElem?_singleton] at hi
  exact htoken.trans (.complete 0 .sourceFile _)

/-- The machine begins the node of the file, reads the file and its end, and stores the tree. -/
theorem parse_eq (s : Text) : parse s = (do
    let read ← drive mark32 maxDepth .file (begun s)
    let ended ← complete (mark32 0) .sourceFile (← read.readStop (tokenize s).stop)
    return ⟨← ended.buildTree s, Diagnostic.sort ended.reports⟩) :=
  rfl

/-- What becomes of a machine that has read a file. -/
theorem parse_of_drive (hdrive : drive mark32 maxDepth .file (begun s) = .ok n)
    (hlike : n.Like ((begun s).after (fileOutcome s))) : parse s = (do
      let tree ← (n.ended (tokenize s).stop).buildTree s
      return ⟨tree, (NginxConf.parse s).diagnostics⟩) := by
  have hrest : n.rest = [] := hlike.rest_eq.trans (rest_fileOutcome s)
  have hreports : Diagnostic.sort n.reports = (NginxConf.parse s).diagnostics := by
    rw [hlike.reports_eq, parse_diagnostics]
    rfl
  have hfile : ((begun s).after (fileOutcome s)).events[0]? = some (.start none) := rfl
  obtain ⟨kind, hfirst⟩ := hlike.exists_start hfile
  have hcomplete : complete (mark32 0) .sourceFile
      { n with events := n.events ++ [.token (tokenize s).stop] }
        = .ok (n.ended (tokenize s).stop) := by
    have hlt := (List.getElem?_eq_some_iff.1 hfirst).1
    rw [complete, show mark32 0 = 0 from rfl]
    simp only [List.getElem?_append_left hlt, hfirst]
    rfl
  rw [parse_eq, hdrive]
  simp only [bind, Except.bind, readStop, hrest]
  rw [show (⟨[], n.events ++ [.token (tokenize s).stop], n.reports, n.depth, n.readEnd⟩ : Machine)
    = { n with events := n.events ++ [.token (tokenize s).stop] } by rw [← hrest], hcomplete]
  rw [← hreports]
  rfl

/-- Marks that are small are stored as they are. -/
theorem kept_of_marks (h : ∀ i kind, (NginxConf.parse s).tree.calls[i]? = some (.start kind) →
      i < Overflow.offsetBound) :
    Kept mark32 (begun s).events.length (fileOutcome s).trees := by
  intro i kind hi
  have hsteps : (placedTree s).steps[1 + i]? = some (.start kind) := by
    rw [placedTree, Tree.steps, Tree.forestSteps_append, Nat.add_comm, List.getElem?_cons_succ,
      List.append_assoc, List.getElem?_append_left (List.getElem?_eq_some_iff.1 hi).1, hi]
  obtain ⟨kind', hcall⟩ := exists_start_iff.2 ⟨kind, hsteps⟩
  exact Nat.mod_eq_of_lt (h _ _ hcall)

/-- What the machine comes to when it reads a file. -/
theorem reaches_begun (s : Text) :
    Reaches mark32 (begun s) (fileOutcome s) (drive mark32 maxDepth .file (begun s)) :=
  reaches_driveWith (runs_fileOutcome s) ⟨rfl, rfl⟩ rfl (Nat.le_refl _) (ordered_tokenize s).inOrder

/-- With small marks, the machine builds the tree of the rules, or refuses to. -/
theorem parse_of_marks (h : ∀ i kind, (NginxConf.parse s).tree.calls[i]? = some (.start kind) →
      i < Overflow.offsetBound) :
    parse s = (do
      let tree ← (Arena.build s (NginxConf.parse s).tree.calls).mapError .build
      tree.assertInvariants.mapError .broken
      return ⟨tree, (NginxConf.parse s).diagnostics⟩) := by
  rw [parse_of_drive ((reaches_begun s).exact (kept_of_marks h)) (.refl _), buildTree, events_ended,
    calls_placedTree]
  simp only [bind_assoc, pure_bind]

/-- **Where all that is stored has 32 bits, the machine does not halt, and stores the tree that the
rules build.** -/
theorem parse_of_storable (hs : Text.size s < Overflow.offsetBound) (h : Storable s) :
    parse s = .ok (NginxConf.parse s).stored := by
  have hbuild := Builder.build_calls_of_text (text_parse s) hs
  rw [parse_of_marks h.marks, (Arena.build_eq_ok_iff hbuild).2 h.arena]
  have hchecked : (Arena.ofTree (NginxConf.parse s).tree).assertInvariants = .ok () :=
    Arena.assertInvariants_eq_ok_iff.2 (Arena.wellFormed_ofTree _)
  show (do
    (Arena.ofTree (NginxConf.parse s).tree).assertInvariants.mapError Halt.broken
    return (⟨Arena.ofTree (NginxConf.parse s).tree, _⟩ : StoredParse)) = _
  rw [hchecked]
  rfl

/-! ## Marks that are too large -/

/-- A builder that has built a tree has been given the kinds of all nodes. -/
theorem start_none_not_mem {events : List ParseEvent} {t : SyntaxTree}
    (hblank : events.map ParseEvent.blank = (placedTree s).steps.map ParseEvent.blank)
    (hcalls : events.filterMap ParseEvent.call? = t.calls) : .start none ∉ events := by
  have hstart := ParseEvent.countP_blank (p := ParseEvent.isStart)
    (fun e => by cases e <;> rfl) hblank
  have hfinish := ParseEvent.countP_blank (p := ParseEvent.isFinish)
    (fun e => by cases e <;> rfl) hblank
  rw [ParseEvent.countP_isStart, hcalls] at hstart
  rw [ParseEvent.countP_isFinish, hcalls, SyntaxTree.calls, ← countP_treeCalls] at hfinish
  rw [Tree.countP_steps, ← hfinish] at hstart
  refine List.count_eq_zero.1 ?_
  rw [SyntaxTree.calls] at hstart
  omega

/-- **What is parsed has small marks only.** -/
theorem marks_of_parse {p : StoredParse} (h : parse s = .ok p) : ∀ i kind,
    (NginxConf.parse s).tree.calls[i]? = some (.start kind) → i < Overflow.offsetBound := by
  intro i kind hi
  obtain hlost | ⟨n, hdrive, hlike, hnamed⟩ := (reaches_begun s).like
  · rw [parse_eq, hlost] at h
    cases h
  have hended := hlike.ended (tokenize s).stop
  rw [parse_of_drive hdrive hlike, buildTree] at h
  -- what is built in an arena is built as a tree, whose calls are those of the events
  cases hbuild : Arena.build s ((n.ended (tokenize s).stop).events.filterMap ParseEvent.call?) with
  | error e => rw [hbuild] at h; cases h
  | ok a =>
    obtain ⟨t, ht, -⟩ := Arena.exists_of_build hbuild
    have hkinds : .start none ∉ (n.ended (tokenize s).stop).events :=
      start_none_not_mem (hended.events_eq.trans (congrArg _ (events_ended s)))
        (Builder.build_eq_ok ht).2.1.symm
    obtain ⟨kind, hstart⟩ := exists_start_iff.1 ⟨kind, hi⟩
    rw [← events_ended] at hstart
    obtain ⟨kind', hstart'⟩ := hended.exists_start hstart
    cases kind' with
    | none => exact absurd (List.mem_of_getElem? hstart') hkinds
    | some kind' =>
      obtain hfirst | ⟨place, rfl⟩ := (hnamed.trans (.ended n _)) i kind' hstart'
      · simp [begun, start, new, List.getElem?_singleton] at hfirst
      · exact Nat.mod_lt _ (by decide)

/-- Where all marks are small, it is the builder that refuses. -/
theorem parse_of_not_fits (hs : Text.size s < Overflow.offsetBound)
    (hmarks : ∀ i kind, (NginxConf.parse s).tree.calls[i]? = some (.start kind) →
      i < Overflow.offsetBound)
    (hfits : ¬ (Arena.ofTree (NginxConf.parse s).tree).Fits) :
    ∃ e, parse s = .error (.build e) := by
  rw [parse_of_marks hmarks]
  cases hbuild : Arena.build s (NginxConf.parse s).tree.calls with
  | error e => exact ⟨e, rfl⟩
  | ok a =>
    obtain ⟨t, ht, rfl⟩ := Arena.exists_of_build hbuild
    cases ht.symm.trans (Builder.build_calls_of_text (text_parse s) hs)
    exact absurd ((Arena.build_eq_ok_iff ht).1 hbuild) hfits

/-- **The machine does not halt exactly if all that it stores has 32 bits.** -/
theorem parse_eq_ok_iff (hs : Text.size s < Overflow.offsetBound) {p : StoredParse} :
    parse s = .ok p ↔ Storable s ∧ p = (NginxConf.parse s).stored := by
  constructor
  · intro h
    have hmarks := marks_of_parse h
    have hstorable : Storable s := by
      refine ⟨hmarks, ?_⟩
      by_contra hfull
      obtain ⟨e, herror⟩ := parse_of_not_fits hs hmarks hfull
      cases h.symm.trans herror
    exact ⟨hstorable, Except.ok.inj (h.symm.trans (parse_of_storable hs hstorable))⟩
  · rintro ⟨h, rfl⟩
    exact parse_of_storable hs h

/-! ## Too much to store -/

/-- **The machine loses a mark in a long row of semicolons.** -/
theorem parse_semicolons {n : Nat} (h : 1431655766 < n) :
    parse (List.replicate n ';') = .error .lostMark := by
  obtain ⟨more, rfl⟩ := Nat.exists_eq_add_of_lt h
  obtain ⟨m, hturns, hmade, hrest⟩ := exists_lostMark more
  have hlost : drive mark32 maxDepth .topStatement m = .error .lostMark :=
    (drive_topSemicolon hrest mark32 maxDepth).trans (statement_lostMark hmade hrest maxDepth)
  have hdrive : drive mark32 maxDepth .file (begun (List.replicate (1431655766 + (more + 1)) ';'))
      = .error .lostMark := by
    refine (repeatWhile_of_turns hturns).trans ?_
    rw [repeatWhile]
    split
    · next hnil => cases hnil.symm.trans hrest
    · rw [if_pos rfl, hlost]
  rw [parse_eq, Nat.add_assoc, hdrive]
  rfl

/-- Line breaks are lexemes of their own. -/
theorem lex_newlines (n : Nat) :
    lex (List.replicate n '\n') = List.replicate n (.trivia .newline ['\n']) := by
  induction n with
  | zero => exact lexFrom_of_none rfl
  | succ n ih =>
    have hstep : lexStep .normal ('\n' :: List.replicate n '\n')
        = some ⟨.trivia .newline ['\n'], .normal, List.replicate n '\n'⟩ := rfl
    rw [List.replicate_succ, lex, lexFrom_of_some hstep, List.replicate_succ]
    exact congrArg _ ih

/-- **An arena cannot hold the pieces of a text of nothing but line breaks** that is nearly as large
as a text may be. -/
theorem parse_newlines {n : Nat} (hn : n < Overflow.offsetBound)
    (h : Overflow.offsetBound ≤ n + 2) : ∃ e, parse (List.replicate n '\n') = .error (.build e) := by
  have hsize : Text.size (List.replicate n '\n') < Overflow.offsetBound := by
    rwa [Text.size_replicate, show '\n'.utf8Size = 1 from rfl, Nat.mul_one]
  refine parse_of_not_fits hsize (fun i kind hi => ?_) fun hfits => ?_
  · -- there is no token but the end, so there is no node but that of the file
    have htokens : (tokenize (List.replicate n '\n')).tokens = [] := by
      refine List.eq_nil_iff_forall_not_mem.2 fun t ht => ?_
      refine forall_mem_attachTrivia (Q := fun _ _ _ => False) 0 [] _ (fun l hl kind hkind => ?_) t ht
      rw [lex_newlines] at hl
      rw [List.eq_of_mem_replicate hl] at hkind
      cases hkind
    have hleaves : (NginxConf.parse (List.replicate n '\n')).tree.leaves.length = 1 := by
      rw [leaves_parse, List.length_map, TokenStream.all, htokens]
      rfl
    have hcalls := length_calls_parse_le (List.replicate n '\n')
    have hlt := (List.getElem?_eq_some_iff.1 hi).1
    have hbound : Overflow.offsetBound = 2 ^ 32 := rfl
    omega
  · have hlex := length_lex_lt_of_fits hfits
    rw [lex_newlines, List.length_replicate] at hlex
    exact Nat.not_lt.2 h hlex

/-! ## All texts -/

/--
**For texts of less than 2 ^ 32 bytes, parsing by machine halts nowhere, and gives the tree and the
reports of the rules, exactly if all that it stores has 32 bits**, as it has for every text of up to
2 ^ 29 bytes. The tree is lossless.
-/
theorem parse_total (s : Text) (hs : Text.size s < Overflow.offsetBound) :
    (Storable s → parse s = .ok (NginxConf.parse s).stored) ∧
      (¬ Storable s → ∃ halt, parse s = .error halt) ∧
      (Text.size s ≤ 2 ^ 29 → Storable s) ∧ (NginxConf.parse s).tree.IsFileOf s := by
  refine ⟨parse_of_storable hs, fun h => ?_, storable_of_size, isFileOf_parse s⟩
  cases hparse : parse s with
  | error halt => exact ⟨halt, rfl⟩
  | ok p => exact absurd ((parse_eq_ok_iff hs).1 hparse).1 h

/-- A text whose tree holds an error node. -/
theorem parse_total_unfinished : Text.size "a b".toList < Overflow.offsetBound ∧
    parse "a b".toList = .ok (NginxConf.parse "a b".toList).stored ∧
      (NginxConf.parse "a b".toList).tree.IsFileOf "a b".toList := by
  have hsize : Text.size "a b".toList < Overflow.offsetBound := by decide
  obtain ⟨hparse, -, hstorable, hfile⟩ := parse_total "a b".toList hsize
  exact ⟨hsize, hparse (hstorable (by decide)), hfile⟩

/-- More semicolons than there are marks for, and more line breaks than an arena can hold. -/
theorem parse_total_too_much :
    (Text.size (List.replicate 1431655767 ';') < Overflow.offsetBound ∧
      parse (List.replicate 1431655767 ';') = .error .lostMark) ∧
    Text.size (List.replicate 4294967295 '\n') < Overflow.offsetBound ∧
      ∃ e, parse (List.replicate 4294967295 '\n') = .error (.build e) := by
  refine ⟨⟨?_, parse_semicolons (by decide)⟩, ?_, parse_newlines (by decide) (by decide)⟩
  · rw [Text.size_replicate]
    decide
  · rw [Text.size_replicate]
    decide

end Machine

end NginxConf
