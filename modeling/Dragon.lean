import Dragon.Check.Basic
import Dragon.Check.Expr
import Dragon.Check.Number
import Dragon.Check.Stmt
import Dragon.Check.Violation
import Dragon.Command.Arguments
import Dragon.Command.Run
import Dragon.Compile
import Dragon.Decimal.Layout
import Dragon.Decimal.Rounded
import Dragon.Decimal.Shortest
import Dragon.Diagnostic.Basic
import Dragon.Diagnostic.Render
import Dragon.Diagnostic.Source
import Dragon.Disk
import Dragon.Double
import Dragon.Editor.Display
import Dragon.Editor.Document
import Dragon.Editor.Place
import Dragon.Event
import Dragon.Highlight.Machine
import Dragon.Highlight.Rule
import Dragon.Logged
import Dragon.Main
import Dragon.Operation
import Dragon.Outline
import Dragon.Path
import Dragon.Proofs.Check.Initializer
import Dragon.Proofs.Diagnostic.Shown
import Dragon.Proofs.Editor.Completion
import Dragon.Proofs.Editor.Globals
import Dragon.Proofs.Highlight.Nesting
import Dragon.Proofs.Layout
import Dragon.Proofs.Located
import Dragon.Proofs.Optimize.Dead
import Dragon.Proofs.Optimize.Division
import Dragon.Proofs.Optimize.Outline
import Dragon.Proofs.Optimize.Sites
import Dragon.Proofs.Optimize.Stmt
import Dragon.Proofs.Scope.Innermost
import Dragon.Proofs.Script.Constructors
import Dragon.Proofs.Script.Faithful
import Dragon.Proofs.Script.Members
import Dragon.Proofs.Script.Optionals
import Dragon.Proofs.Script.StringLiterals
import Dragon.Proofs.Script.Writes
import Dragon.Proofs.Token.Bracketed
import Dragon.Proofs.Tree.Joined
import Dragon.Proofs.Tree.Printed
import Dragon.Proofs.Tree.Progress
import Dragon.Proofs.Type.Described
import Dragon.Proofs.Type.Order
import Dragon.Scope.Basic
import Dragon.Scope.Library
import Dragon.Scope.Nest
import Dragon.Script.Basic
import Dragon.Script.Literal
import Dragon.Script.OfTyped
import Dragon.Script.Text
import Dragon.Settings.Basic
import Dragon.Settings.Toml
import Dragon.Span
import Dragon.Symbol
import Dragon.Text.Blank
import Dragon.Text.Digit
import Dragon.Text.Hex
import Dragon.Text.Letter
import Dragon.Text.Lines
import Dragon.Text.Printable
import Dragon.Text.Quoted
import Dragon.Text.Ranges
import Dragon.Text.Split
import Dragon.Text.Utf8
import Dragon.Token.Basic
import Dragon.Token.Fault
import Dragon.Token.Piece
import Dragon.Token.Stream
import Dragon.Tree.Basic
import Dragon.Tree.ExprReader
import Dragon.Tree.Reading
import Dragon.Tree.Source
import Dragon.Tree.StmtReader
import Dragon.Tree.TypeReader
import Dragon.Tree.View
import Dragon.Type.Basic
import Dragon.Type.Objects
import Dragon.Typed.Basic
import Dragon.Typed.Fold
import Dragon.Typed.Misplaced
import Dragon.Typed.Optimize
import Dragon.Typed.Simplify
import Dragon.Typed.Value
import Dragon.Typed.View
