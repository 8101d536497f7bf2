import NginxConf.Proofs.Edit.Tokens
import NginxConf.Proofs.Grammar.Relabel
import NginxConf.Proofs.Grammar.Splice

/-!
# What the rule for a file builds after an edit

A token of the edited text is one of the old text or one of the block taken alone, in another place
and perhaps with other trivia (`Version`). The grammar sees no difference, so all three texts can be
parsed over versions of tokens: the old text and the edited one differ only in what stands between
the braces, and what stands there comes out as it does alone (`Taken.nonempty_spliced`).
-/

namespace NginxConf

/-- A token in the old text, in the block taken alone, and in the edited text; where it does not
occur in one of them, any token that looks the same stands for it. -/
structure Version where
  old : PlacedToken
  alone : PlacedToken
  new : PlacedToken
  alone_eq : alone.lexeme = old.lexeme
  new_eq : new.lexeme = old.lexeme

namespace Version

instance : Lexical Version where
  kind v := Lexical.kind v.old
  text v := Lexical.text v.old
  fault v := Lexical.fault v.old

/-- Tokens that are the same pieces of text look the same to the grammar. -/
theorem relabelling {f : Version → PlacedToken} (h : ∀ v, (f v).lexeme = v.old.lexeme) :
    Relabelling f where
  kind v := LeafKind.token.inj (Lexeme.mk.inj (h v)).1
  text v := (Lexeme.mk.inj (h v)).2.1
  fault v := (Lexeme.mk.inj (h v)).2.2

theorem relabelling_old : Relabelling old := relabelling fun _ => rfl

theorem relabelling_alone : Relabelling alone := relabelling alone_eq

theorem relabelling_new : Relabelling new := relabelling new_eq

/-- A token that is the same in all texts. -/
def kept (p : PlacedToken) : Version := ⟨p, p, p, rfl, rfl⟩

/-- A token that stands elsewhere in the edited text. -/
def moved (f : Nat → Nat) (p : PlacedToken) : Version := ⟨p, p, p.relocate f, rfl, rfl⟩

end Version

/-- The rule for what stands in a block, over other tokens. -/
theorem Relabels.items {α β : Type} [Lexical α] [Lexical β] {f : α → β} (hf : Relabelling f)
    (shape : BlockShape) : Relabels f (Rule.items shape) (Rule.items shape) := by
  refine .many ?_
  cases shape with
  | plain => exact statement hf
  | geo => exact geoItem hf

/-- The rule for a file, over versions of the tokens of a text. -/
theorem fileOutcome_eq_map {f : Version → PlacedToken} (hf : Relabelling f) {s : Text}
    {versions : List Version} (hversions : versions.map f = (tokenize s).tokens)
    (horigin : f (.kept .origin) = .origin) :
    fileOutcome s = (Rule.file.run maxDepth (.kept .origin) versions).map f := by
  have hrun := run_relabel hf (.file hf) maxDepth (.kept .origin) versions
  rwa [horigin, hversions] at hrun

namespace Taken

variable {s edited : Text} {e : Edit} {b : ClosedBlock} (h : Taken s e edited b)

/-- The `{` of the block. -/
def leftVersion : Version where
  old := h.old.opening
  alone := h.new.opening
  new := h.opening
  alone_eq := by
    rw [lexeme_leftBrace h.new.opening_mem h.new.opening_kind,
      lexeme_leftBrace (s := s) (by simp [h.old.tokens_eq]) h.old.opening_kind]
  new_eq := by
    rw [h.opening_lexeme, lexeme_leftBrace (s := s) (by simp [h.old.tokens_eq]) h.old.opening_kind]

/-- The `}` of the block. -/
def rightVersion : Version where
  old := h.old.closing
  alone := h.new.closing
  new := h.closing
  alone_eq := by
    rw [lexeme_rightBrace h.new.closing_mem h.new.closing_kind,
      lexeme_rightBrace (s := s) (by simp [h.old.tokens_eq]) h.old.closing_kind]
  new_eq := by
    rw [h.closing_lexeme,
      lexeme_rightBrace (s := s) (by simp [h.old.tokens_eq]) h.old.closing_kind]

/-- The tokens before the block. -/
def versionsBefore : List Version := h.old.tokensBefore.map .kept

/-- The tokens between the braces of the old block. -/
def versionsInside : List Version := h.old.inside.map .kept

/-- The tokens between the braces of the new block. -/
def versionsWithin : List Version := h.within.map (.moved (· + b.left.span.start))

/-- The tokens after the block. -/
def versionsAfter : List Version := h.old.tokensAfter.map (.moved e.move)

/-- The tokens of a text, with those between the braces given. -/
def versions (between : List Version) : List Version :=
  h.versionsBefore ++ h.leftVersion :: (between ++ h.rightVersion :: h.versionsAfter)

theorem map_old_versions :
    (h.versions h.versionsInside).map Version.old = (tokenize s).tokens := by
  rw [h.old.tokens_eq]
  simp [versions, versionsBefore, versionsInside, versionsAfter, leftVersion, rightVersion,
    Version.kept, Version.moved, Function.comp_def]

theorem map_new_versions (hlost : h.new.lost = [])
    (hscript : opensScript (h.old.tokensBefore.map (·.token.kind)) = false) :
    (h.versions h.versionsWithin).map Version.new = (tokenize edited).tokens := by
  rw [h.tokenize_edited hlost hscript]
  simp [versions, versionsBefore, versionsWithin, versionsAfter, leftVersion, rightVersion,
    Version.kept, Version.moved, Function.comp_def]

theorem map_alone_versions :
    (h.versionsWithin ++ [h.rightVersion]).map Version.alone = h.new.rest := by
  rw [h.new.rest_tokens]
  simp [versionsWithin, within, rightVersion, Version.moved, Function.comp_def]

/-! ## The old text -/

/-- What the rule for a file returns over versions of the tokens of the old text. -/
def outcome : Outcome Version :=
  Rule.file.run maxDepth (.kept .origin) (h.versions h.versionsInside)

theorem runs_outcome :
    Runs maxDepth [] [] .file (.kept .origin) (h.versions h.versionsInside) h.outcome :=
  Rule.runs_file _ _

theorem fileOutcome_eq : fileOutcome s = h.outcome.map Version.old :=
  fileOutcome_eq_map Version.relabelling_old h.map_old_versions rfl

/-- The block in what the rule for a file has built over versions. -/
theorem exists_hole : ∃ (hole : Hole Version) (items : List (Tree Version)),
    h.outcome.trees = hole.fill (.braces b.shape h.leftVersion items h.rightVersion) ∧
    hole.map Version.old = ⟨h.old.before, h.old.frames, h.old.after⟩ ∧
    hole.leavesBefore = h.versionsBefore ∧ hole.leavesAfter = h.versionsAfter ∧
    items.flatMap Tree.leaves = h.versionsInside := by
  have htrees : h.outcome.trees.map (Tree.map Version.old)
      = Hole.fill ⟨h.old.before, h.old.frames, h.old.after⟩
        (.braces b.shape h.old.opening h.old.items h.old.closing) :=
    (congrArg Outcome.trees h.fileOutcome_eq).symm.trans h.old.trees_eq
  obtain ⟨hole, block, htrees, hhole, hblock⟩ := Hole.exists_of_map_eq_fill htrees
  obtain ⟨l, items, r, rfl, -, hitems, -⟩ := Tree.exists_of_map_eq_braces hblock.symm
  have hread : h.outcome.read = h.versions h.versionsInside := Rule.read_file _ _
  rw [Outcome.read, htrees, Hole.leaves_fill, Tree.leaves_braces, versions] at hread
  have hbefore : hole.leavesBefore.length = h.versionsBefore.length := by
    have hmap := hole.leavesBefore_map Version.old
    rw [← hhole] at hmap
    have hlength := congrArg List.length hmap
    rw [List.length_map] at hlength
    rw [← hlength, versionsBefore, List.length_map]
    rfl
  have hinside : (items.flatMap Tree.leaves).length = h.versionsInside.length := by
    rw [versionsInside, List.length_map, Enclosed.inside, hitems, Tree.flatMap_leaves_map,
      List.length_map]
  simp only [List.append_assoc, List.cons_append] at hread
  obtain ⟨h1, hread⟩ := List.append_inj hread hbefore
  obtain ⟨hl, hread⟩ := List.cons.inj hread
  obtain ⟨h2, hread⟩ := List.append_inj hread hinside
  obtain ⟨hr, h3⟩ := List.cons.inj hread
  subst hl
  subst hr
  exact ⟨hole, items, htrees, hhole.symm, h1, h3, h2⟩

/-! ## The block -/

/-- What the rule for what stands in the block returns over versions. -/
def itemsOutcome : Outcome Version :=
  (Rule.items b.shape).run h.new.room h.leftVersion (h.versionsWithin ++ [h.rightVersion])

/-- What is found in the block alone is what is found over versions. -/
theorem items_alone : (Rule.items b.shape).run h.new.room h.new.opening h.new.rest
    = h.itemsOutcome.map Version.alone := by
  have hrun := run_relabel Version.relabelling_alone (.items Version.relabelling_alone b.shape)
    h.new.room h.leftVersion (h.versionsWithin ++ [h.rightVersion])
  rwa [h.map_alone_versions] at hrun

theorem rest_itemsOutcome : h.itemsOutcome.rest = [h.rightVersion] := by
  have hrest := congrArg Outcome.rest h.items_alone
  rw [h.new.rest_eq] at hrest
  have hlength : h.itemsOutcome.rest.length = 1 := by
    have hmap := congrArg List.length hrest
    rw [show (h.itemsOutcome.map Version.alone).rest = h.itemsOutcome.rest.map _ from rfl,
      List.length_map] at hmap
    exact hmap.symm
  have hread : h.itemsOutcome.read ++ h.itemsOutcome.rest = h.versionsWithin ++ [h.rightVersion] :=
    (Rule.runs_items b.shape _ _).read_append_rest
  exact (List.append_inj' hread hlength).2

theorem read_itemsOutcome : h.itemsOutcome.read = h.versionsWithin := by
  have hread : h.itemsOutcome.read ++ h.itemsOutcome.rest = h.versionsWithin ++ [h.rightVersion] :=
    (Rule.runs_items b.shape _ _).read_append_rest
  rw [h.rest_itemsOutcome] at hread
  exact List.append_cancel_right hread

/-- There is no fault in a brace. -/
theorem faultOf_braces :
    Outcome.faultOf h.leftVersion = [] ∧ Outcome.faultOf h.rightVersion = [] := by
  have hleft : Lexical.fault h.leftVersion = none := by
    have hfault := congrArg Lexeme.fault h.leftVersion.new_eq
    exact hfault.symm
  have hright : Lexical.fault h.rightVersion = none := by
    have hfault := congrArg Lexeme.fault h.rightVersion.new_eq
    exact hfault.symm
  rw [Outcome.faultOf, Outcome.faultOf, hleft, hright]
  exact ⟨rfl, rfl⟩

/-- The block over versions. -/
def block : Tree Version := .braces b.shape h.leftVersion h.itemsOutcome.trees h.rightVersion

/-- **The block comes out the same wherever it stands.** -/
theorem blockIs : BlockIs h.new.room b.shape h.leftVersion h.versionsWithin h.rightVersion h.block
    h.itemsOutcome.issues := by
  have hblock := blockIs_of_items h.rest_itemsOutcome
  rw [h.faultOf_braces.1, h.faultOf_braces.2, List.nil_append, List.append_nil] at hblock
  exact hblock

end Taken

/-! ## The edited text -/

/-- What the rule for a file has built and found outside of the block, over versions. -/
structure Spliced {s edited : Text} {e : Edit} {b : ClosedBlock} (h : Taken s e edited b) where
  hole : Hole Version
  /-- What is found before and after what is found in the block. -/
  before : List (Issue Version)
  inner : List (Issue Version)
  after : List (Issue Version)
  hole_eq : hole.map Version.old = ⟨h.old.before, h.old.frames, h.old.after⟩
  leavesBefore_eq : hole.leavesBefore = h.versionsBefore
  leavesAfter_eq : hole.leavesAfter = h.versionsAfter
  issues_eq : (fileOutcome s).issues = (before ++ inner ++ after).map (Issue.map Version.old)
  inner_among : ∀ i ∈ inner, i.place.Among h.versionsInside (h.leftVersion :: h.versionsInside)
  outer_among : ∀ i ∈ before ++ after, i.place.Among
    (h.versionsBefore ++ h.leftVersion :: h.versionsAfter)
    (.kept .origin :: (h.versionsBefore ++ h.rightVersion :: h.versionsAfter))
  edited_trees : (fileOutcome edited).trees = (hole.fill h.block).map (Tree.map Version.new)
  edited_issues : (fileOutcome edited).issues
    = (before ++ h.itemsOutcome.issues ++ after).map (Issue.map Version.new)

/-- **The old text and the edited one differ only in what stands between the braces.** -/
theorem Taken.nonempty_spliced {s edited : Text} {e : Edit} {b : ClosedBlock}
    (h : Taken s e edited b) (hlost : h.new.lost = [])
    (hscript : opensScript (h.old.tokensBefore.map (·.token.kind)) = false) :
    Nonempty (Spliced h) := by
  obtain ⟨hole, items, htrees, hhole, hbefore, hafter, hinside⟩ := h.exists_hole
  obtain ⟨spare, before, inner, issues, after, hin, hissues, hfits⟩ :=
    h.runs_outcome.exists_fits htrees
  have hblocks : Frame.blocks hole.frames = b.depth := by
    rw [h.old.depth_eq, ← Frame.blocks_map Version.old hole.frames]
    exact congrArg (fun hole => Frame.blocks hole.frames) hhole
  have hspare : spare = h.new.room := by
    have h1 := hfits.room_eq
    have h2 := h.new.room_eq
    omega
  subst hspare
  have hrun := hfits.run_eq h.blockIs
  have hrest : h.outcome.rest = [] := Rule.rest_file _ _
  have htokens : hole.tokens h.leftVersion h.versionsWithin h.rightVersion h.outcome.rest
      = h.versions h.versionsWithin := by
    rw [hrest, Hole.tokens, hbefore, hafter, List.append_nil, versions]
  rw [htokens] at hrun
  have hedited := fileOutcome_eq_map Version.relabelling_new (h.map_new_versions hlost hscript) rfl
  rw [hrun] at hedited
  have hissues_eq : issues = inner := by
    rw [hin.issues_eq, h.faultOf_braces.1, h.faultOf_braces.2, List.nil_append, List.append_nil]
  refine ⟨⟨hole, before, inner, after, hhole, hbefore, hafter, ?_, ?_, ?_, ?_, ?_⟩⟩
  · rw [h.fileOutcome_eq]
    exact congrArg (List.map _) (hissues_eq ▸ hissues)
  · rw [← hinside]
    exact hin.among
  · have houter := hfits.among
    rwa [hbefore, hafter] at houter
  · rw [hedited]
    rfl
  · rw [hedited]
    rfl

end NginxConf
