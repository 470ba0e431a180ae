import TreeTemplate.Binary64.Basic
import TreeTemplate.Binary64.Rounding
import TreeTemplate.Binary64.Shortest
import TreeTemplate.Binary64.Text
import TreeTemplate.CommandLine
import TreeTemplate.Document.Encoding
import TreeTemplate.Document.Format
import TreeTemplate.Document.Json.Reader
import TreeTemplate.Document.Json.Writer
import TreeTemplate.Document.Toml.Reader
import TreeTemplate.Document.Toml.Table
import TreeTemplate.Document.Toml.Time
import TreeTemplate.Document.Yaml.Line
import TreeTemplate.Document.Yaml.Literal
import TreeTemplate.Document.Yaml.Node
import TreeTemplate.Document.Yaml.NodeValue
import TreeTemplate.Document.Yaml.Plain
import TreeTemplate.Document.Yaml.Quoted
import TreeTemplate.Document.Yaml.Reader
import TreeTemplate.Document.Yaml.Refusal
import TreeTemplate.Document.Yaml.Scalar
import TreeTemplate.Document.Yaml.Tag
import TreeTemplate.Document.Yaml.Time
import TreeTemplate.Document.Yaml.Token
import TreeTemplate.Document.Yaml.Writer
import TreeTemplate.Expr.Basic
import TreeTemplate.Expr.Eval
import TreeTemplate.Expr.Parser
import TreeTemplate.Expr.Printer
import TreeTemplate.Expr.Stored
import TreeTemplate.Expr.Token
import TreeTemplate.Failure
import TreeTemplate.Files.Disk
import TreeTemplate.Files.Path
import TreeTemplate.Files.Search
import TreeTemplate.Host
import TreeTemplate.Host.Arithmetic
import TreeTemplate.Host.Library
import TreeTemplate.Main
import TreeTemplate.Moment.Basic
import TreeTemplate.Moment.Text
import TreeTemplate.Proofs.Expr.Grammar
import TreeTemplate.Proofs.Expr.Numeral
import TreeTemplate.Report
import TreeTemplate.Run
import TreeTemplate.Scope
import TreeTemplate.Scope.Forest
import TreeTemplate.Scope.Grove
import TreeTemplate.Scope.Path
import TreeTemplate.Session
import TreeTemplate.Template.Engine
import TreeTemplate.Template.Inline
import TreeTemplate.Template.Node
import TreeTemplate.Text.Base64
import TreeTemplate.Text.Blank
import TreeTemplate.Text.DecimalDigit
import TreeTemplate.Text.Identifier
import TreeTemplate.Text.Integer
import TreeTemplate.Text.Printable
import TreeTemplate.Text.Quoted
import TreeTemplate.Trace
import TreeTemplate.Value.Basic
import TreeTemplate.Value.Index
import TreeTemplate.Value.Key
import TreeTemplate.Value.Mapping
import TreeTemplate.Value.Shown
import TreeTemplate.Proofs.Expr.TokenGrammar
import TreeTemplate.Proofs.Expr.ParserGrammar
import TreeTemplate.Proofs.Scope.Agreement
import TreeTemplate.Proofs.Template.ScopeFlattening
import TreeTemplate.Proofs.Template.Emission
import TreeTemplate.Proofs.Template.ContextCoherence
import TreeTemplate.Proofs.Binary64.Rounding
import TreeTemplate.Proofs.Text.Digits
import TreeTemplate.Proofs.Text.Integer
import TreeTemplate.Proofs.Binary64.Shortest
import TreeTemplate.Proofs.Expr.Printing
import TreeTemplate.Proofs.Expr.RoundTrip
import TreeTemplate.Proofs.Expr.Evaluation
import TreeTemplate.Proofs.Files.Search
import TreeTemplate.Proofs.Template.Conduct
import TreeTemplate.Proofs.Template.Reading
import TreeTemplate.Proofs.Template.CodeAndData
import TreeTemplate.Proofs.Template.EscapingFaults
import TreeTemplate.Proofs.Run.Contract
import TreeTemplate.Proofs.Value.Domain
import TreeTemplate.Proofs.Session.SearchPaths
import TreeTemplate.Proofs.Scope.WriteVisibility
import TreeTemplate.Proofs.Scope.PathExpressions
import TreeTemplate.Proofs.Template.Correspondence
import TreeTemplate.Proofs.Session.FurtherPaths
import TreeTemplate.Proofs.Template.Documents
import TreeTemplate.Proofs.Value.KeyOrder
import TreeTemplate.Proofs.Template.PlainData
import TreeTemplate.Proofs.Template.ReadAlike
import TreeTemplate.Proofs.Template.InsertionOrder
import TreeTemplate.Proofs.Template.Depth
import TreeTemplate.Proofs.Template.IncludeTransparency
import TreeTemplate.Proofs.Template.Termination
import TreeTemplate.Proofs.Template.PlainList
import TreeTemplate.Proofs.Template.Captures
import TreeTemplate.Proofs.Expr.PlainEvaluation
import TreeTemplate.Proofs.Run.Failing
import TreeTemplate.Proofs.Template.Failing
import TreeTemplate.Proofs.Template.Stops
import TreeTemplate.Proofs.Template.ErrorClauses
import TreeTemplate.Proofs.Inline.Groups
import TreeTemplate.Proofs.Inline.Values
import TreeTemplate.Proofs.Inline.Comments
import TreeTemplate.Proofs.Template.MergeUnion
import TreeTemplate.Proofs.Template.DeadParts
import TreeTemplate.Proofs.Expr.Shape
import TreeTemplate.Proofs.Expr.Spacing
import TreeTemplate.Proofs.Expr.Parentheses
import TreeTemplate.Proofs.Expr.CallOrder
import TreeTemplate.Proofs.Expr.BaseNames
import TreeTemplate.Proofs.Expr.Persisted
import TreeTemplate.Proofs.Template.ComputedKeys
import TreeTemplate.Proofs.Template.SpliceRequests
import TreeTemplate.Proofs.CommandLine.Grammar
