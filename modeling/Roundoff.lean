import Roundoff.Binary64.Arithmetic
import Roundoff.Binary64.Basic
import Roundoff.Binary64.Enclosure
import Roundoff.Binary64.Power
import Roundoff.Binary64.Rounding
import Roundoff.Binary64.Shortest
import Roundoff.Binary64.Text
import Roundoff.CommandLine.Arguments
import Roundoff.CommandLine.Command
import Roundoff.Contract.Library
import Roundoff.Contract.Outcome
import Roundoff.Contract.Schema
import Roundoff.Contract.WellFormed
import Roundoff.Decimal
import Roundoff.Dual.Basic
import Roundoff.Dual.Recursive
import Roundoff.Dual.Walk
import Roundoff.Exact
import Roundoff.Expansion.Agreement
import Roundoff.Expansion.Basic
import Roundoff.Expr.Basic
import Roundoff.Expr.Parser
import Roundoff.Failure
import Roundoff.Json.Basic
import Roundoff.Json.Path
import Roundoff.Json.Printer
import Roundoff.Json.Reader
import Roundoff.Line
import Roundoff.Literal
import Roundoff.Main
import Roundoff.Metrics
import Roundoff.Numeral.Basic
import Roundoff.Numeral.Read
import Roundoff.Operation
import Roundoff.Proofs.Binary64.Conversion
import Roundoff.Proofs.Binary64.Enclosure
import Roundoff.Proofs.Binary64.Line
import Roundoff.Proofs.Binary64.Monotone
import Roundoff.Proofs.Binary64.Nearest
import Roundoff.Proofs.Binary64.Opposite
import Roundoff.Proofs.Binary64.Ordinal
import Roundoff.Proofs.Binary64.Power
import Roundoff.Proofs.Binary64.ReadBack
import Roundoff.Proofs.Binary64.Rounding
import Roundoff.Proofs.Binary64.Text
import Roundoff.Proofs.Binary64.Trapping
import Roundoff.Proofs.Binary64.Ulp
import Roundoff.Proofs.Dual.Approximations
import Roundoff.Proofs.Dual.Faults
import Roundoff.Proofs.Dual.FirstFault
import Roundoff.Proofs.Dual.History
import Roundoff.Proofs.Dual.Limits
import Roundoff.Proofs.Dual.Literal
import Roundoff.Proofs.Dual.Meaning
import Roundoff.Proofs.Dual.Operands
import Roundoff.Proofs.Dual.Power
import Roundoff.Proofs.Dual.Recursion
import Roundoff.Proofs.Dual.Relocation
import Roundoff.Proofs.Dual.Steps
import Roundoff.Proofs.Dual.Stops
import Roundoff.Proofs.Dual.Trail
import Roundoff.Proofs.Exact.Calculation
import Roundoff.Proofs.Exact.Fraction
import Roundoff.Proofs.Exact.Height
import Roundoff.Proofs.Expansion.Agreement
import Roundoff.Proofs.Expansion.Budget
import Roundoff.Proofs.Expansion.Canonical
import Roundoff.Proofs.Expansion.Comparison
import Roundoff.Proofs.Expansion.Division
import Roundoff.Proofs.Expansion.Period
import Roundoff.Proofs.Expansion.Reading
import Roundoff.Proofs.Expansion.Rendering
import Roundoff.Proofs.Expansion.Terminating
import Roundoff.Proofs.Expansion.Value
import Roundoff.Proofs.Expr.Acceptance
import Roundoff.Proofs.Expr.Completeness
import Roundoff.Proofs.Expr.Grammar
import Roundoff.Proofs.Expr.Limits
import Roundoff.Proofs.Expr.Meaning
import Roundoff.Proofs.Expr.Nesting
import Roundoff.Proofs.Expr.Offending
import Roundoff.Proofs.Expr.Origin
import Roundoff.Proofs.Expr.Place
import Roundoff.Proofs.Expr.Refusal
import Roundoff.Proofs.Expr.Relocation
import Roundoff.Proofs.Expr.Room
import Roundoff.Proofs.Expr.Soundness
import Roundoff.Proofs.Expr.Source
import Roundoff.Proofs.Expr.Steps
import Roundoff.Proofs.Line
import Roundoff.Proofs.Line.Failures
import Roundoff.Proofs.Line.Layout
import Roundoff.Proofs.Line.Literal
import Roundoff.Proofs.Line.Malformed
import Roundoff.Proofs.Line.Size
import Roundoff.Proofs.Line.SourceOrder
import Roundoff.Proofs.Line.Stages
import Roundoff.Proofs.Line.Totality
import Roundoff.Proofs.Literal.Plain
import Roundoff.Proofs.Literal.Printed
import Roundoff.Proofs.Literal.Repeating
import Roundoff.Proofs.Literal.Size
import Roundoff.Proofs.Literal.Spelling
import Roundoff.Proofs.Literal.Value
import Roundoff.Proofs.Metrics
import Roundoff.Proofs.Metrics.Consistency
import Roundoff.Proofs.Numeral.Accepted
import Roundoff.Proofs.Numeral.Pieces
import Roundoff.Proofs.Numeral.Positional
import Roundoff.Proofs.Numeral.Written
import Roundoff.Proofs.Operation
import Roundoff.Proofs.Record.Agreement
import Roundoff.Proofs.Record.Conformance
import Roundoff.Proofs.Record.Conforming
import Roundoff.Proofs.Record.Mirror
import Roundoff.Proofs.Record.ReadBack
import Roundoff.Proofs.Record.Settings
import Roundoff.Proofs.Sequence
import Roundoff.Proofs.Session.Commands
import Roundoff.Proofs.Session.CorrectDigits
import Roundoff.Proofs.Session.Ratio
import Roundoff.Proofs.Shadow.Detection
import Roundoff.Proofs.Shadow.Exactness
import Roundoff.Proofs.Shadow.Extrema
import Roundoff.Proofs.Shadow.Flags
import Roundoff.Proofs.Shadow.Power
import Roundoff.Proofs.Shadow.Step
import Roundoff.Proofs.Shadow.Sums
import Roundoff.Proofs.Shadow.Totality
import Roundoff.Proofs.Symbols
import Roundoff.Proofs.Text.Trim
import Roundoff.Proofs.Token.Layout
import Roundoff.Proofs.Token.Lexing
import Roundoff.Proofs.Token.Literal
import Roundoff.Proofs.Token.Munch
import Roundoff.Proofs.Token.Words
import Roundoff.Record.IntegerText
import Roundoff.Record.Outcome
import Roundoff.Record.Settings
import Roundoff.Record.Shape
import Roundoff.Record.Shapes
import Roundoff.Session.Loop
import Roundoff.Session.Ratio
import Roundoff.Session.Report
import Roundoff.Session.Styled
import Roundoff.Settings
import Roundoff.Shadow.Basic
import Roundoff.Shadow.Event
import Roundoff.Symbols
import Roundoff.Text.Blank
import Roundoff.Text.Digit
import Roundoff.Text.Pattern
import Roundoff.Text.Printable
import Roundoff.Text.Quoted
import Roundoff.Text.Width
import Roundoff.Token.Basic
import Roundoff.Token.Lexer
