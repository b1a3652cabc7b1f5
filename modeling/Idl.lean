import Idl.Bisect
import Idl.Builtin
import Idl.Comment
import Idl.Compilation
import Idl.Diagnostic
import Idl.FileSet
import Idl.FileTree
import Idl.Ir
import Idl.Ir.Decode
import Idl.Ir.Encode
import Idl.Ir.Lower
import Idl.Json
import Idl.Json.Number
import Idl.Json.Read
import Idl.Json.Record
import Idl.Main
import Idl.NameMap
import Idl.Package
import Idl.Package.Link
import Idl.Path
import Idl.Project
import Idl.Project.Host
import Idl.Project.Manifest
import Idl.Proofs.Alike
import Idl.Proofs.Blocks
import Idl.Proofs.Comments.Attach
import Idl.Proofs.Comments.Cursor
import Idl.Proofs.Comments.Groups
import Idl.Proofs.Comments.Lines
import Idl.Proofs.Comments.Parse
import Idl.Proofs.Comments.Sifting
import Idl.Proofs.Comments.Source
import Idl.Proofs.Comments.Trailing
import Idl.Proofs.Discovery
import Idl.Proofs.EnumValues
import Idl.Proofs.FileSets
import Idl.Proofs.FileTrees
import Idl.Proofs.Identifiers
import Idl.Proofs.ImportPaths
import Idl.Proofs.Ir.BeanIds
import Idl.Proofs.Ir.Clean
import Idl.Proofs.Ir.ConstChains
import Idl.Proofs.Ir.Depth
import Idl.Proofs.Ir.Display
import Idl.Proofs.Ir.Gaps
import Idl.Proofs.Ir.ImportMaps
import Idl.Proofs.Ir.MethodText
import Idl.Proofs.Ir.Placed
import Idl.Proofs.Ir.Quiet
import Idl.Proofs.Ir.Referents
import Idl.Proofs.Ir.RoundTrip
import Idl.Proofs.Ir.Single
import Idl.Proofs.Ir.SizeWarnings
import Idl.Proofs.Ir.Sizes
import Idl.Proofs.Ir.Slots
import Idl.Proofs.Ir.TagText
import Idl.Proofs.Ir.Targets
import Idl.Proofs.Ir.TypeText
import Idl.Proofs.Isolation
import Idl.Proofs.Json.Digits
import Idl.Proofs.Json.Reading
import Idl.Proofs.Json.Records
import Idl.Proofs.Json.Written
import Idl.Proofs.LineEndings.Places
import Idl.Proofs.LineEndings.Source
import Idl.Proofs.LineEndings.Text
import Idl.Proofs.LineTables
import Idl.Proofs.Link.Groups
import Idl.Proofs.Link.Imports
import Idl.Proofs.Link.Kept
import Idl.Proofs.Link.Merge
import Idl.Proofs.Link.Packages
import Idl.Proofs.Link.Settle
import Idl.Proofs.Meaning
import Idl.Proofs.Messages
import Idl.Proofs.NameMaps
import Idl.Proofs.Nodes
import Idl.Proofs.Objects
import Idl.Proofs.Occurrences
import Idl.Proofs.Order
import Idl.Proofs.Parsed
import Idl.Proofs.Paths
import Idl.Proofs.Placeholders
import Idl.Proofs.Placement
import Idl.Proofs.Placement.Layout
import Idl.Proofs.Placement.Parse
import Idl.Proofs.Placement.Scan
import Idl.Proofs.Placement.Source
import Idl.Proofs.Positions
import Idl.Proofs.Redeclaration
import Idl.Proofs.Reordering.Crowding
import Idl.Proofs.Reordering.Files
import Idl.Proofs.Reordering.Lowering
import Idl.Proofs.Reordering.Reports
import Idl.Proofs.Reordering.Sources
import Idl.Proofs.Repeats
import Idl.Proofs.ReportMarks
import Idl.Proofs.ReportPlaces
import Idl.Proofs.ReportSpans
import Idl.Proofs.Resolution
import Idl.Proofs.Respelling
import Idl.Proofs.Respelling.Link
import Idl.Proofs.Respelling.Lower
import Idl.Proofs.Respelling.Parse
import Idl.Proofs.Respelling.Scan
import Idl.Proofs.Respelling.Sources
import Idl.Proofs.Scopes
import Idl.Proofs.Searches
import Idl.Proofs.Sorting
import Idl.Proofs.StrictReports
import Idl.Proofs.Syntax.Accepted
import Idl.Proofs.Syntax.Ending
import Idl.Proofs.Syntax.Kept
import Idl.Proofs.Syntax.Members
import Idl.Proofs.Syntax.Nesting
import Idl.Proofs.Syntax.Progress
import Idl.Proofs.Syntax.Reading
import Idl.Proofs.Syntax.Recognized
import Idl.Proofs.Syntax.Recovery
import Idl.Proofs.Syntax.Sentences
import Idl.Proofs.Syntax.Stops
import Idl.Proofs.Syntax.Words
import Idl.Proofs.Syntax.Written
import Idl.Proofs.TagSpelling
import Idl.Proofs.Tags
import Idl.Proofs.Token.Escapes
import Idl.Proofs.Token.Faults
import Idl.Proofs.Token.Integers
import Idl.Proofs.Token.Lexer
import Idl.Proofs.Token.Locality
import Idl.Proofs.Token.Lossless
import Idl.Proofs.Token.OneLine
import Idl.Proofs.Token.Quoting
import Idl.Proofs.Token.Sources
import Idl.Proofs.Trace
import Idl.Proofs.Trace.Account
import Idl.Proofs.Trace.Grammar
import Idl.Proofs.Trace.Names
import Idl.Proofs.Trace.Occurrences
import Idl.Proofs.Trace.Places
import Idl.Proofs.Trace.Resolve
import Idl.Proofs.Trace.Source
import Idl.Proofs.Trace.Start
import Idl.Proofs.Trace.Tree
import Idl.Proofs.Walks
import Idl.Proofs.Work
import Idl.Report
import Idl.Scope
import Idl.SourceFile
import Idl.Span
import Idl.Syntax
import Idl.Syntax.Ast
import Idl.Syntax.Binding
import Idl.Syntax.Decl
import Idl.Syntax.File
import Idl.Syntax.Member
import Idl.Syntax.State
import Idl.Syntax.Tree
import Idl.Syntax.TypeExpr
import Idl.Tag
import Idl.Text.Blank
import Idl.Text.CharSet
import Idl.Text.Decimal
import Idl.Text.Digits
import Idl.Text.Letter
import Idl.Text.Quoted
import Idl.Text.Shown
import Idl.Text.Width
import Idl.Token
import Idl.Token.Fault
import Idl.Token.Lexer
import Idl.Token.Scan
import Idl.Toml
import Idl.Toml.Read
import Idl.Toml.Scan
