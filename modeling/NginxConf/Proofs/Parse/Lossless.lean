import NginxConf.Parse
import NginxConf.Proofs.Grammar.Sound
import NginxConf.Proofs.SyntaxTree.Pieces
import NginxConf.Proofs.Token.Tiling

/-!
# Nothing is lost in parsing

The leaves of the tree of a text are the tokens of the text, and a token for the end.
-/

namespace NginxConf

/-- The text of trees of placed tokens. -/
theorem Tree.forestText_map (ts : List (Tree PlacedToken)) :
    forestText (ts.map (map PlacedToken.token))
      = (ts.flatMap leaves).flatMap (·.token.fullText) := by
  rw [← List.flatMap_map, ← flatMap_leaves_map, List.flatMap_assoc]
  rfl

/-- The token that is taken for the one before the first token of a text. -/
def PlacedToken.origin : PlacedToken := .bareEnd 0

/-- What the rule for a file returns for a text. -/
def fileOutcome (s : Text) : Outcome PlacedToken :=
  Rule.file.run maxDepth .origin (tokenize s).tokens

theorem runs_fileOutcome (s : Text) :
    Runs maxDepth [] [] .file .origin (tokenize s).tokens (fileOutcome s) :=
  Rule.runs_file _ _

@[simp]
theorem read_fileOutcome (s : Text) : (fileOutcome s).read = (tokenize s).tokens :=
  Rule.read_file _ _

@[simp]
theorem rest_fileOutcome (s : Text) : (fileOutcome s).rest = [] := Rule.rest_file _ _

/-- What the rule for a file builds, and the end, fill the text. -/
theorem tile_fileOutcome (s : Text) :
    Tile 0 (((fileOutcome s).trees ++ [Tree.leaf (tokenize s).stop]).flatMap Tree.leaves)
      (Text.size s) := by
  rw [List.flatMap_append, show (fileOutcome s).trees.flatMap Tree.leaves = (fileOutcome s).read
    from rfl, read_fileOutcome]
  exact tile_tokenize s

/-- The tree of a text holds what the rule for a file builds, and the end. -/
theorem parse_tree (s : Text) : (parse s).tree
    = ⟨.sourceFile, (fileOutcome s).trees.map (Tree.map PlacedToken.token)
        ++ [.leaf (tokenize s).stop.token]⟩ := by
  rw [parse, parseFile_eq PlacedToken.origin]
  rfl

theorem parse_diagnostics (s : Text) : (parse s).diagnostics
    = Diagnostic.sort ((fileOutcome s).issues.map Issue.diagnostic) := by
  rw [parse, parseFile_eq PlacedToken.origin]
  rfl

/-- **The leaves of the tree of a text are its tokens.** -/
theorem leaves_parse (s : Text) :
    (parse s).tree.leaves = (tokenize s).all.map PlacedToken.token := by
  rw [parse_tree, Node.leaves, List.flatMap_append, Tree.flatMap_leaves_map]
  rw [show (fileOutcome s).trees.flatMap Tree.leaves = (fileOutcome s).read from rfl,
    read_fileOutcome, TokenStream.all, List.map_append]
  rfl

/-- **The text of the tree of a text is the text.** -/
theorem text_parse (s : Text) : (parse s).text = s := by
  rw [Parse.text, SyntaxTree.text, leaves_parse, List.flatMap_map]
  exact text_tokenize s

/-- The end is a bare token with the trivia that is left. -/
theorem stop_attachTrivia (offset : Nat) (leading : List Trivia) (ls : List Lexeme) :
    ∃ left, (attachTrivia offset leading ls).stop.token = .endOfFile left := by
  fun_induction attachTrivia offset leading ls with
  | case1 _ leading => exact ⟨leading, rfl⟩
  | case2 _ _ _ _ _ _ ih => exact ih
  | case3 _ _ _ _ _ _ _ _ ih => exact ih

/-- After the last token of a text comes its end. -/
theorem kind_stop_tokenize (s : Text) : (tokenize s).stop.token.kind = .endOfFile := by
  obtain ⟨left, hstop⟩ := stop_attachTrivia 0 [] (lex s)
  rw [tokenize, hstop]
  rfl

/-- What the tree of a whole text is like. -/
structure SyntaxTree.IsFileOf (t : SyntaxTree) (s : Text) : Prop where
  kind : t.kind = .sourceFile
  /-- The last child is the end, which has no text, and no other token is an end. -/
  ends : ∃ trees left, t.children = trees ++ [.leaf (.endOfFile left)] ∧
    ∀ token ∈ trees.flatMap Tree.leaves, token.kind ≠ .endOfFile
  /-- The tokens with their trivia are the lexemes in order, and the end. -/
  lexemes : t.lexemes = (lex s).map Lexeme.bare ++ [.token .endOfFile []]
  text : t.text = s
  rootText : (NodeRef.root t).text = s
  /-- The pieces of text stand one after the other, without a gap, over the whole text. -/
  pieces : Tiled 0 (NodeRef.root t).leaves s

/-- **The tree of a text is lossless.** -/
theorem isFileOf_parse (s : Text) : (parse s).tree.IsFileOf s where
  kind := rfl
  ends := by
    obtain ⟨left, hstop⟩ := stop_attachTrivia 0 [] (lex s)
    rw [parse_tree, show (tokenize s).stop.token = .endOfFile left from hstop]
    refine ⟨_, left, rfl, fun token htoken => ?_⟩
    rw [Tree.flatMap_leaves_map] at htoken
    obtain ⟨p, hp, rfl⟩ := List.mem_map.1 htoken
    rw [show (fileOutcome s).trees.flatMap Tree.leaves = (fileOutcome s).read from rfl,
      read_fileOutcome] at hp
    exact (tokenize_shaped hp).not_endOfFile
  lexemes := by
    rw [SyntaxTree.lexemes, leaves_parse, List.flatMap_map]
    exact lexemes_tokenize s
  text := text_parse s
  rootText := (NodeRef.text_root _).trans (text_parse s)
  pieces := by
    have h := (NodeRef.root (parse s).tree).tiled_leaves
    rwa [NodeRef.text_root, show (parse s).tree.text = s from text_parse s] at h

end NginxConf
