import Rollup.CommandLine.Argument
import Rollup.CommandLine.Command
import Rollup.CommandLine.Help
import Rollup.CommandLine.Run
import Rollup.Compile.Error
import Rollup.Compile.Resolver
import Rollup.Compiler
import Rollup.Expr.Basic
import Rollup.Expr.Error
import Rollup.Expr.Lexeme
import Rollup.Expr.Parser
import Rollup.Expr.Printer
import Rollup.Expr.Token
import Rollup.Expr.Traversal
import Rollup.FirstSeen
import Rollup.Function.Aggregate
import Rollup.Function.Registry
import Rollup.Group.Aggregation
import Rollup.Group.Condition
import Rollup.Group.Expr
import Rollup.Group.Output
import Rollup.Group.Shared
import Rollup.Group.Typing
import Rollup.Host
import Rollup.Json.Basic
import Rollup.Json.Parser
import Rollup.Json.Printer
import Rollup.Json.Record
import Rollup.Main
import Rollup.Number.Binary64
import Rollup.Number.Decimal
import Rollup.Number.Layout
import Rollup.Number.Shortest
import Rollup.Number.Word
import Rollup.Plan
import Rollup.Proofs.Acceptance
import Rollup.Proofs.Analysis
import Rollup.Proofs.Compile.Bucket
import Rollup.Proofs.Compile.Cycle
import Rollup.Proofs.Compile.DefaultAggregate
import Rollup.Proofs.Compile.Derived
import Rollup.Proofs.Compile.FirstError
import Rollup.Proofs.Compile.Part
import Rollup.Proofs.Compile.Resolver
import Rollup.Proofs.Compile.Termination
import Rollup.Proofs.Compiler
import Rollup.Proofs.Computation
import Rollup.Proofs.Depth
import Rollup.Proofs.Expansion
import Rollup.Proofs.Expr.Equality
import Rollup.Proofs.Expr.Grammar
import Rollup.Proofs.Expr.Grouping
import Rollup.Proofs.Expr.Lexeme
import Rollup.Proofs.Expr.Literal
import Rollup.Proofs.Expr.Negation
import Rollup.Proofs.Expr.Parser
import Rollup.Proofs.Expr.Passing
import Rollup.Proofs.Expr.Position
import Rollup.Proofs.Expr.Printer
import Rollup.Proofs.Expr.Rebuilding
import Rollup.Proofs.Expr.Respelling
import Rollup.Proofs.Expr.RoundTrip
import Rollup.Proofs.Expr.Span
import Rollup.Proofs.Expr.SyntaxError
import Rollup.Proofs.Expr.Token
import Rollup.Proofs.Expr.Traversal
import Rollup.Proofs.Expr.Viable
import Rollup.Proofs.Farthest
import Rollup.Proofs.Group.Aggregation
import Rollup.Proofs.Group.Call
import Rollup.Proofs.Group.Complete
import Rollup.Proofs.Group.Condition
import Rollup.Proofs.Group.Expr
import Rollup.Proofs.Group.Interning
import Rollup.Proofs.Group.Key
import Rollup.Proofs.Group.Occurrence
import Rollup.Proofs.Group.Output
import Rollup.Proofs.Group.Part
import Rollup.Proofs.Group.Repetition
import Rollup.Proofs.Group.Resolution
import Rollup.Proofs.Group.Settled
import Rollup.Proofs.Group.Shared
import Rollup.Proofs.Group.Substitution
import Rollup.Proofs.Group.Target
import Rollup.Proofs.Group.Typing
import Rollup.Proofs.Guarded
import Rollup.Proofs.Json.Reading
import Rollup.Proofs.Number.Digits
import Rollup.Proofs.Number.Exact
import Rollup.Proofs.Number.Numeral
import Rollup.Proofs.Passing
import Rollup.Proofs.Plan
import Rollup.Proofs.Reader
import Rollup.Proofs.Refusal
import Rollup.Proofs.Request.Document
import Rollup.Proofs.Result
import Rollup.Proofs.Schema.Cycle
import Rollup.Proofs.Schema.Document
import Rollup.Proofs.Sql.Blanks
import Rollup.Proofs.Sql.Chain
import Rollup.Proofs.Sql.Comment
import Rollup.Proofs.Sql.Dialect
import Rollup.Proofs.Sql.Expr
import Rollup.Proofs.Sql.Grammar
import Rollup.Proofs.Sql.Grouping
import Rollup.Proofs.Sql.Minus
import Rollup.Proofs.Sql.QuotedName
import Rollup.Proofs.Sql.Reading
import Rollup.Proofs.Sql.Sign
import Rollup.Proofs.Sql.StringLiteral
import Rollup.Proofs.Sql.Unquoted
import Rollup.Proofs.Sql.Word
import Rollup.Proofs.Sql.Zero
import Rollup.Proofs.Staging.Aggregate
import Rollup.Proofs.Staging.Alone
import Rollup.Proofs.Staging.Build
import Rollup.Proofs.Staging.Call
import Rollup.Proofs.Staging.Capture
import Rollup.Proofs.Staging.Chain
import Rollup.Proofs.Staging.Comment
import Rollup.Proofs.Staging.Distinct
import Rollup.Proofs.Staging.FieldName
import Rollup.Proofs.Staging.FreshName
import Rollup.Proofs.Staging.Interchange
import Rollup.Proofs.Staging.Interval
import Rollup.Proofs.Staging.Landing
import Rollup.Proofs.Staging.Legal
import Rollup.Proofs.Staging.Named
import Rollup.Proofs.Staging.Null
import Rollup.Proofs.Staging.NullTest
import Rollup.Proofs.Staging.Once
import Rollup.Proofs.Staging.Origin
import Rollup.Proofs.Staging.Part
import Rollup.Proofs.Staging.Partition
import Rollup.Proofs.Staging.Ready
import Rollup.Proofs.Staging.Reference
import Rollup.Proofs.Staging.Rendering
import Rollup.Proofs.Staging.Routing
import Rollup.Proofs.Staging.Scope
import Rollup.Proofs.Staging.Shadow
import Rollup.Proofs.Staging.Sound
import Rollup.Proofs.Staging.Statement
import Rollup.Proofs.Staging.Throughout
import Rollup.Proofs.Staging.Value
import Rollup.Proofs.Staging.Word
import Rollup.Proofs.Staging.Written
import Rollup.Proofs.Text.Quoted
import Rollup.Proofs.Time.Civil
import Rollup.Proofs.Time.Rfc3339
import Rollup.Proofs.Time.Span
import Rollup.Proofs.Unquoted
import Rollup.Proofs.Value.Duration
import Rollup.Proofs.Value.Size
import Rollup.Query
import Rollup.Reader
import Rollup.Request.Basic
import Rollup.Request.Compile
import Rollup.Request.Document
import Rollup.Request.File
import Rollup.Schema.Basic
import Rollup.Schema.DataType
import Rollup.Schema.Document
import Rollup.Schema.Validation
import Rollup.Settings.Basic
import Rollup.Settings.File
import Rollup.Sql.Database
import Rollup.Sql.Dialect
import Rollup.Sql.Expr
import Rollup.Sql.Query
import Rollup.Sql.Spelling
import Rollup.Sql.Token
import Rollup.Staging.Build
import Rollup.Staging.FieldName
import Rollup.Staging.FreshName
import Rollup.Staging.Layout
import Rollup.Staging.Rendering
import Rollup.Text.Alphanumeric
import Rollup.Text.Character
import Rollup.Text.Quoted
import Rollup.Time.Civil
import Rollup.Time.Instant
import Rollup.Time.Rfc3339
import Rollup.Toml.Basic
import Rollup.Toml.Document
import Rollup.Toml.Quoted
import Rollup.Toml.Record
import Rollup.Toml.Scalar
import Rollup.Toml.Table
import Rollup.Value.Duration
import Rollup.Value.Error
import Rollup.Value.Percentage
import Rollup.Value.Size
