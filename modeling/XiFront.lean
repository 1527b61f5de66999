import XiFront.Peg.Expr
import XiFront.Peg.Match
import XiFront.Peg.Attempts
import XiFront.Keyword
import XiFront.Operator
import XiFront.Scalar
import XiFront.Rule
import XiFront.Grammar
import XiFront.Source
import XiFront.Position
import XiFront.Error
import XiFront.Mismatch
import XiFront.Tree.Selection
import XiFront.Tree.Node
import XiFront.Tree.Walk
import XiFront.Tree
import XiFront.Tree.Dot
import XiFront.Path
import XiFront.Path.View
import XiFront.Text.Ranges
import XiFront.Text.Unprintable
import XiFront.Text.Extending
import XiFront.Text.Quoted
import XiFront.Text.Escape
import XiFront.Number.Binary64
import XiFront.Number.Shortest
import XiFront.Number.Layout
import XiFront.Ast.Kind
import XiFront.Ast.Expr
import XiFront.Ast
import XiFront.Ast.Describe
import XiFront.Lowering.Parts
import XiFront.Lowering.Type
import XiFront.Lowering.Item
import XiFront.Lowering.Expr
import XiFront.Lowering
import XiFront.Session
import XiFront.Peg.Analysis
import XiFront.Grammar.Facts
import XiFront.Path.Reread
import XiFront.PathName
import XiFront.Store
import XiFront.Config
import XiFront.Workspace
import XiFront.Json
import XiFront.Command.Arguments
import XiFront.Command.Dump
import XiFront.Command.Compile
import XiFront.Command.Listing
import XiFront.Main
import XiFront.Proofs.Peg.Answer
import XiFront.Proofs.Peg.Reading
import XiFront.Proofs.Peg.Ranking
import XiFront.Proofs.Peg.Yield
import XiFront.Proofs.Peg.Tight
import XiFront.Proofs.Peg.Likeness
import XiFront.Proofs.Peg.Following
import XiFront.Proofs.Peg.Outlook
import XiFront.Proofs.Grammar.Fuel
import XiFront.Proofs.Text.Escape
import XiFront.Proofs.Text.Quoted
import XiFront.Proofs.Grammar.Token
import XiFront.Proofs.Grammar.Filler
import XiFront.Proofs.Grammar.Quote
import XiFront.Proofs.Grammar.Scan
import XiFront.Proofs.Grammar.Cut
import XiFront.Proofs.Grammar.Literal
import XiFront.Proofs.Grammar.Trail
import XiFront.Proofs.Grammar.Lead
import XiFront.Proofs.Grammar.Items
import XiFront.Proofs.Tree.Numbering
import XiFront.Proofs.Tree.Referents
import XiFront.Proofs.Tree.Shape
import XiFront.Proofs.Tree.WellFormed
import XiFront.Proofs.Tree.Eager
import XiFront.Proofs.Tree.Alike
import XiFront.Proofs.Tree.Extent
import XiFront.Proofs.Path.Source
import XiFront.Proofs.Lowering.Parts
import XiFront.Proofs.Lowering.Type
import XiFront.Proofs.Lowering.Outcome
import XiFront.Proofs.Lowering.Path
import XiFront.Proofs.Lowering.Item
import XiFront.Proofs.Lowering.Literal
import XiFront.Proofs.Lowering.Expr
import XiFront.Proofs.Session.Inquiry
import XiFront.Proofs.Session.Order
import XiFront.Proofs.Lowering.Meaning
import XiFront.Proofs.Lowering.Failure
import XiFront.Proofs.Path.Spelling
import XiFront.Proofs.Path.Reread
import XiFront.Proofs.Parse.Interchange
import XiFront.Proofs.Parse.Junction
import XiFront.Proofs.Parse.Concatenation
import XiFront.Proofs.Precedence.Grouping
import XiFront.Proofs.Precedence.Reading
import XiFront.Proofs.Parse.Constant
import XiFront.Proofs.Precedence.Constant
import XiFront.Proofs.Parse.Quoted
import XiFront.Proofs.Session.Reach
import XiFront.Proofs.Session.Footprint
import XiFront.Proofs.Grammar.Termination
import XiFront.Proofs.Tree.Arena
import XiFront.Proofs.Parse.Diagnostics
import XiFront.Proofs.Parse.Leading
import XiFront.Proofs.Parse.Respelling
import XiFront.Proofs.Command.Outcome
import XiFront.Proofs.Workspace.Snapshot
import XiFront.Proofs.Tree.Pruning
import XiFront.Proofs.Text.Accepted
import XiFront.Proofs.Grammar.Word
import XiFront.Proofs.Grammar.Spacing
import XiFront.Proofs.Grammar.Beside
import XiFront.Proofs.Tree.Dot
import XiFront.Proofs.Path.Window
import XiFront.Proofs.Path.Splitting
import XiFront.Proofs.Tree.Position
import XiFront.Proofs.Session.Methods
import XiFront.Proofs.Peg.Entry
import XiFront.Proofs.Parse.FirstToken
import XiFront.Proofs.Grammar.Derivation
import XiFront.Proofs.Grammar.Matching
import XiFront.Proofs.Grammar.Passage
import XiFront.Proofs.Grammar.Lookahead
import XiFront.Proofs.Grammar.Fork
import XiFront.Proofs.Grammar.Nesting
import XiFront.Proofs.Grammar.Enclosure
import XiFront.Proofs.Grammar.TypeList
import XiFront.Proofs.Grammar.TypeFork
import XiFront.Proofs.Grammar.Choices
import XiFront.Proofs.Grammar.Site
import XiFront.Proofs.Grammar.Crossing
import XiFront.Proofs.Grammar.Place
import XiFront.Proofs.Parse.Parentheses
