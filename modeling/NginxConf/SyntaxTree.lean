import NginxConf.Token
import NginxConf.Tree

/-!
# Syntax trees

A syntax tree is a node whose leaves are tokens with their trivia. The text that it was made from
is the text of its leaves, so it need not be kept beside the tree.
-/

namespace NginxConf

/-- The tree of a text. -/
abbrev SyntaxTree := Node Token

namespace SyntaxTree

/-- The text that a tree was made from. -/
def text (t : SyntaxTree) : Text := t.leaves.flatMap Token.fullText

/-- All pieces of the text, in order. -/
def lexemes (t : SyntaxTree) : List Lexeme := t.leaves.flatMap Token.lexemes

/-- The kinds of all nodes, a node before those below it. -/
def kinds (t : SyntaxTree) : List NodeKind := t.toTree.kinds

/-- The most nodes on a way from the top down. -/
def depth (t : SyntaxTree) : Nat := t.toTree.depth

end SyntaxTree

end NginxConf
