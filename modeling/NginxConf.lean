import NginxConf.Text.Line
import NginxConf.Kind.Set
import NginxConf.Parse
import NginxConf.SyntaxTree.Search
import NginxConf.SyntaxTree.Visit
import NginxConf.SyntaxTree.View
import NginxConf.SyntaxTree.Builder
import NginxConf.Arena.Builder
import NginxConf.Arena.Walk
import NginxConf.Arena.Invariants
import NginxConf.Edit.Reparse
import NginxConf.Format
import NginxConf.Diagnostic.Snippet
import NginxConf.Editor.Brace
import NginxConf.Editor.Fold
import NginxConf.Editor.Injection
import NginxConf.Workspace
import NginxConf.Main
import NginxConf.Parse.Machine
import NginxConf.Proofs.Grammar.Runs
import NginxConf.Proofs.Grammar.Sound
import NginxConf.Proofs.Lexeme.Shape
import NginxConf.Proofs.Token.Tiling
import NginxConf.Proofs.SyntaxTree.Build
import NginxConf.Proofs.SyntaxTree.Pieces
import NginxConf.Proofs.Parse.Lossless
import NginxConf.Proofs.Parse.Machine
import NginxConf.Proofs.Grammar.Relabel
import NginxConf.Proofs.Grammar.Language
import NginxConf.Proofs.Grammar.Accepts
import NginxConf.Proofs.Grammar.Recognize
import NginxConf.Proofs.Grammar.Statements
import NginxConf.Proofs.Parse.Errors
import NginxConf.Proofs.Tree.Context
import NginxConf.Proofs.Tree.Hole
import NginxConf.Proofs.SyntaxTree.Descent
import NginxConf.Proofs.Grammar.Blocks
import NginxConf.Proofs.Edit.Apply
import NginxConf.Proofs.Edit.Enclosed
import NginxConf.Proofs.Edit.Alone
import NginxConf.Proofs.Edit.Outcome
import NginxConf.Proofs.Lexeme.Lookahead
import NginxConf.Proofs.Lexeme.Script
import NginxConf.Proofs.Lexeme.Splice
import NginxConf.Proofs.Grammar.Lookahead
import NginxConf.Proofs.Grammar.Splice
import NginxConf.Proofs.Token.Splice
import NginxConf.Proofs.Edit.Tokens
import NginxConf.Proofs.Diagnostic.Order
import NginxConf.Proofs.Edit.Fresh
import NginxConf.Proofs.Lexeme.Restart
import NginxConf.Lexeme.Scanner
import NginxConf.Proofs.Lexeme.Scanner
import NginxConf.Proofs.Lexeme.Partition
import NginxConf.Proofs.Format.Meaning
import NginxConf.Proofs.Format.Confluent
import NginxConf.Proofs.Lexeme.Discipline
import NginxConf.Proofs.Parse.Shape
import NginxConf.Proofs.Parse.Braces
import NginxConf.Proofs.Grammar.Recovery
import NginxConf.Proofs.Token.Trimmed
import NginxConf.Proofs.SyntaxTree.Outline
import NginxConf.Proofs.Parse.Append
import NginxConf.Proofs.Parse.Skeleton
import NginxConf.Proofs.Arena.Layout
import NginxConf.Proofs.Arena.Build
import NginxConf.Proofs.Arena.Walk
import NginxConf.Proofs.Arena.WellFormed
import NginxConf.Proofs.Lexeme.Structural
import NginxConf.Proofs.Lexeme.Parentheses
import NginxConf.Proofs.Lexeme.LuaExtent
import NginxConf.Proofs.Token.Regroup
import NginxConf.Proofs.Parse.Lookup
import NginxConf.Arena.Search
import NginxConf.Proofs.Arena.Search
import NginxConf.Proofs.Arena.Pruned
import NginxConf.Proofs.SyntaxTree.Held
import NginxConf.Proofs.Editor.Content
import NginxConf.Proofs.Editor.Injection
import NginxConf.Proofs.Grammar.TooDeep
import NginxConf.Proofs.Parse.Partners
import NginxConf.Proofs.Editor.Fold
import NginxConf.Proofs.Token.Parens
import NginxConf.Proofs.Tree.ParenRows
import NginxConf.Proofs.Parse.Parens
import NginxConf.Proofs.Editor.Brace
import NginxConf.Proofs.Tree.Heads
import NginxConf.Proofs.Format.Layout
import NginxConf.Proofs.Format.BeforeItem
import NginxConf.Proofs.Format.LaidOut
import NginxConf.Proofs.Parse.Depth
import NginxConf.Proofs.Parse.Surplus
import NginxConf.Proofs.Edit.Aligned
import NginxConf.Proofs.Parse.Views
import NginxConf.Proofs.Parse.Progress
import NginxConf.Proofs.Parse.Total
