import TileSelect.Catalog.Basic
import TileSelect.Catalog.Declaration
import TileSelect.Catalog.Document
import TileSelect.Catalog.Entry
import TileSelect.Catalog.File
import TileSelect.Collection.BitSet
import TileSelect.Collection.Stack
import TileSelect.CommandLine.Flags
import TileSelect.CommandLine.Help
import TileSelect.CommandLine.Run
import TileSelect.Cost
import TileSelect.Diagnosis
import TileSelect.Expectation
import TileSelect.Fault
import TileSelect.FileTree
import TileSelect.Graph.Basic
import TileSelect.Graph.Builder
import TileSelect.Graph.Traversal
import TileSelect.Integer
import TileSelect.Json.Basic
import TileSelect.Json.Reader
import TileSelect.Lexer
import TileSelect.Main
import TileSelect.Opcode
import TileSelect.Pattern.Basic
import TileSelect.Pattern.Reader
import TileSelect.Program.Basic
import TileSelect.Program.Parser
import TileSelect.Program.Token
import TileSelect.Report
import TileSelect.Resource
import TileSelect.SExpr.Basic
import TileSelect.SExpr.Reader
import TileSelect.Scanner
import TileSelect.Selection.Basic
import TileSelect.Selection.Cover
import TileSelect.Selection.Trace
import TileSelect.Source.File
import TileSelect.Source.Span
import TileSelect.Source.SpanMap
import TileSelect.Source.SyntaxError
import TileSelect.Terminal.Escape
import TileSelect.Terminal.Table
import TileSelect.Text.Blank
import TileSelect.Text.Decimal
import TileSelect.Text.Encoding
import TileSelect.Text.Printable
import TileSelect.Text.Quoted
import TileSelect.Text.Split
import TileSelect.Text.Utf8
import TileSelect.TokenStream
import TileSelect.Yaml.Basic
import TileSelect.Yaml.Character
import TileSelect.Yaml.Cursor
import TileSelect.Yaml.Fields
import TileSelect.Yaml.Gap
import TileSelect.Yaml.Lexer
import TileSelect.Yaml.Meaning
import TileSelect.Yaml.Moment
import TileSelect.Yaml.Reader
import TileSelect.Yaml.Scalar
import TileSelect.Yaml.Source
import TileSelect.Yaml.Token
import TileSelect.Yaml.Writer
import TileSelect.Proofs.BitSetMembership
import TileSelect.Proofs.GraphReachability
import TileSelect.Proofs.PostorderTraversal
import TileSelect.Proofs.SaturatingCosts
import TileSelect.Proofs.PatternBoundary
import TileSelect.Proofs.SelectionCompleteness
import TileSelect.Proofs.TilingOptimality
import TileSelect.Proofs.CoverOrder
import TileSelect.Proofs.CoverExecution
import TileSelect.Proofs.SelectionSharing
import TileSelect.Proofs.BuildMeaning
import TileSelect.Proofs.BuildLayout
import TileSelect.Proofs.ProgramLexemes
import TileSelect.Proofs.ProgramGrammar
import TileSelect.Proofs.ProgramParsing
import TileSelect.Proofs.GraphConstruction
import TileSelect.Proofs.CatalogCoverage
import TileSelect.Proofs.CatalogMonotonicity
import TileSelect.Proofs.Utf8Decoding
import TileSelect.Proofs.ProgramPrinting
import TileSelect.Proofs.SExprReading
import TileSelect.Proofs.PatternSyntax
import TileSelect.Proofs.CatalogEncoding
import TileSelect.Proofs.SExprBalance
import TileSelect.Proofs.SExprPrinting
import TileSelect.Proofs.DecimalNumerals
import TileSelect.Proofs.CatalogAgreement
import TileSelect.Proofs.InstructionSpans
import TileSelect.Proofs.ErrorLocation
import TileSelect.Proofs.GraphInvariants
import TileSelect.Proofs.PatternGrammar
import TileSelect.Proofs.PostorderWalks
import TileSelect.Proofs.PatternPositions
import TileSelect.Proofs.BoundaryOperands
import TileSelect.Proofs.TieBreaking
import TileSelect.Proofs.CoverTotals
import TileSelect.Proofs.BuildPolicies
import TileSelect.Proofs.SExprRecording
import TileSelect.Proofs.SExprSpans
import TileSelect.Proofs.CatalogDeclarations
import TileSelect.Proofs.StatementSpans
import TileSelect.Proofs.TokenSequences
import TileSelect.Proofs.SourceLines
import TileSelect.Proofs.ErrorColumns
import TileSelect.Proofs.TriviaInsertion
import TileSelect.Proofs.BitSetCounting
import TileSelect.Proofs.TableLayout
import TileSelect.Proofs.ExpectedErrors
import TileSelect.Proofs.ScannerBounds
import TileSelect.Proofs.CostGroupings
