import FieldQuery.CommandLine.Action
import FieldQuery.CommandLine.Arguments
import FieldQuery.CommandLine.Command
import FieldQuery.CommandLine.Program
import FieldQuery.CommandLine.Reference
import FieldQuery.Document
import FieldQuery.Document.Arena
import FieldQuery.Document.Node
import FieldQuery.Document.Path
import FieldQuery.Fields
import FieldQuery.Json.Basic
import FieldQuery.Json.Number
import FieldQuery.Json.Reader
import FieldQuery.Json.Text
import FieldQuery.Json.Token
import FieldQuery.Json.Value
import FieldQuery.Main
import FieldQuery.Numeric.Arithmetic
import FieldQuery.Numeric.Digits
import FieldQuery.Numeric.Double
import FieldQuery.Numeric.Integer
import FieldQuery.Numeric.Power
import FieldQuery.Numeric.Rounding
import FieldQuery.Numeric.Shortest
import FieldQuery.Proofs.Condition.Completeness
import FieldQuery.Proofs.Condition.Filter
import FieldQuery.Proofs.Condition.Grammar
import FieldQuery.Proofs.Condition.Move
import FieldQuery.Proofs.Condition.Soundness
import FieldQuery.Proofs.Document.Arena
import FieldQuery.Proofs.Document.Follow
import FieldQuery.Proofs.Document.Index
import FieldQuery.Proofs.Document.Lookup
import FieldQuery.Proofs.Document.PlainKeys
import FieldQuery.Proofs.Document.Spelled
import FieldQuery.Proofs.Document.Walk
import FieldQuery.Proofs.FieldPath
import FieldQuery.Proofs.Formula.Side
import FieldQuery.Proofs.Formula.Truth
import FieldQuery.Proofs.Formula.Written
import FieldQuery.Proofs.Json.Quoted
import FieldQuery.Proofs.Json.Rebuild
import FieldQuery.Proofs.Json.RoundTrip
import FieldQuery.Proofs.Json.Written
import FieldQuery.Proofs.KeyPath
import FieldQuery.Proofs.Phrases
import FieldQuery.Proofs.Scan.Cut
import FieldQuery.Proofs.Scan.Kinds
import FieldQuery.Proofs.Scan.Lossless
import FieldQuery.Proofs.Scan.Written
import FieldQuery.Proofs.Selection.Agreement
import FieldQuery.Proofs.Selection.Placement
import FieldQuery.Proofs.Selection.Restriction
import FieldQuery.Proofs.Value.Keys
import FieldQuery.Proofs.Value.Ordered
import FieldQuery.Query.Basic
import FieldQuery.Query.Condition
import FieldQuery.Query.Lexeme
import FieldQuery.Query.Literal
import FieldQuery.Query.ParseError
import FieldQuery.Query.Phrase
import FieldQuery.Query.Reading
import FieldQuery.Query.Relation
import FieldQuery.Query.Stream
import FieldQuery.Query.Token
import FieldQuery.Query.Tree
import FieldQuery.Query.Truth
import FieldQuery.Run
import FieldQuery.Selection
import FieldQuery.Text.Alphanumeric
import FieldQuery.Text.Blank
import FieldQuery.Text.Quoted
import FieldQuery.Text.Ranges
import FieldQuery.Text.Strip
import FieldQuery.Text.Unprintable
import FieldQuery.Value
import FieldQuery.Value.Compare
import FieldQuery.Proofs.ListedPath
import FieldQuery.Proofs.Scan.Continued
import FieldQuery.Proofs.Condition.Words
import FieldQuery.Proofs.Condition.Parsed
import FieldQuery.Proofs.Selection.Gate
import FieldQuery.Proofs.Numeric.Interval
import FieldQuery.Proofs.Numeric.Scaled
import FieldQuery.Proofs.Numeric.Text
import FieldQuery.Proofs.Scan.Shape
import FieldQuery.Proofs.Tree.Legible
import FieldQuery.Proofs.Tree.Print
import FieldQuery.Proofs.Condition.Bounds
import FieldQuery.Proofs.Scan.Respaced
import FieldQuery.Proofs.Condition.Moved
import FieldQuery.Proofs.Value.Reordered
import FieldQuery.Proofs.Numeric.Rounded
import FieldQuery.Proofs.Numeric.Whole
import FieldQuery.Proofs.Json.Float
import FieldQuery.Proofs.Json.Read
import FieldQuery.Proofs.Value.Reread
import FieldQuery.Proofs.Value.Drift
import FieldQuery.Proofs.Document.Reread
import FieldQuery.Proofs.Tree.Comparisons
import FieldQuery.Proofs.Selection.Reread
import FieldQuery.Proofs.Json.Narrowed
import FieldQuery.Proofs.Selection.Overwrite
import FieldQuery.Proofs.Document.Ways
import FieldQuery.Proofs.Condition.Refused
import FieldQuery.Proofs.Reading.Settled
import FieldQuery.Proofs.Numeric.Truncated
import FieldQuery.Proofs.Scan.Longest
import FieldQuery.Proofs.Tree.Meaning
import FieldQuery.Proofs.Formula.Flat
import FieldQuery.Proofs.Reading.Located
import FieldQuery.Proofs.Reading.TopLevel
import FieldQuery.Proofs.Tree.Numeral
import FieldQuery.Proofs.Formula.Comparison
import FieldQuery.Proofs.Formula.Quoted
import FieldQuery.Proofs.Formula.Numeral
import FieldQuery.Query.Scanner
import FieldQuery.Proofs.Json.Squeezed
import FieldQuery.Proofs.Json.Decimal
import FieldQuery.Proofs.Json.Finite
import FieldQuery.Proofs.Scan.Interleaved
import FieldQuery.Proofs.Document.Numbered
import FieldQuery.Query.Lookahead
import FieldQuery.Query.Parser
import FieldQuery.Proofs.Parser.Lookahead
import FieldQuery.Proofs.Parser.Answers
import FieldQuery.Proofs.Parser.History
import FieldQuery.Proofs.Selection.Apart
import FieldQuery.Proofs.Text.Runs
import FieldQuery.Proofs.Text.Classes
import FieldQuery.Proofs.Fields
import FieldQuery.Proofs.Json.Grammar
import FieldQuery.Proofs.Json.Numeral
import FieldQuery.Proofs.Json.Reads
import FieldQuery.Proofs.Json.Accepted
