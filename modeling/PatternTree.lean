import PatternTree.Command.Basic
import PatternTree.Command.Response
import PatternTree.Command.Settings
import PatternTree.Command.SettingsFile
import PatternTree.CommandLine.Basic
import PatternTree.CommandLine.Reader
import PatternTree.CommandLine.Run
import PatternTree.Editor.Basic
import PatternTree.Editor.Edit
import PatternTree.Editor.Navigation
import PatternTree.Editor.Request
import PatternTree.Failure
import PatternTree.Grammar.Body
import PatternTree.Grammar.Failure
import PatternTree.Grammar.Scan
import PatternTree.Json.Basic
import PatternTree.Json.Printer
import PatternTree.Main
import PatternTree.Node.Basic
import PatternTree.Node.Construct
import PatternTree.Pass.Basic
import PatternTree.Pass.Catalog
import PatternTree.Pass.Dedupe
import PatternTree.Pass.Scripted
import PatternTree.Pass.Strip
import PatternTree.Pass.Ungroup
import PatternTree.Path.Error
import PatternTree.Path.Tracker
import PatternTree.Pattern.Basic
import PatternTree.Pattern.Error
import PatternTree.Pattern.Literal
import PatternTree.Pattern.Snippet
import PatternTree.Proofs.Classes
import PatternTree.Proofs.Complaints
import PatternTree.Proofs.Course
import PatternTree.Proofs.Crossing
import PatternTree.Proofs.Cursors
import PatternTree.Proofs.Deduping
import PatternTree.Proofs.Detached
import PatternTree.Proofs.Drafts
import PatternTree.Proofs.Encodings
import PatternTree.Proofs.Endings
import PatternTree.Proofs.FirstEntries
import PatternTree.Proofs.Focus
import PatternTree.Proofs.Forest
import PatternTree.Proofs.FreshRuns
import PatternTree.Proofs.Groves
import PatternTree.Proofs.Growth
import PatternTree.Proofs.Holding
import PatternTree.Proofs.Identity
import PatternTree.Proofs.Inflating
import PatternTree.Proofs.Insertions
import PatternTree.Proofs.Lifetimes
import PatternTree.Proofs.Linkage
import PatternTree.Proofs.Literals
import PatternTree.Proofs.Looking
import PatternTree.Proofs.Neighbours
import PatternTree.Proofs.Numbering
import PatternTree.Proofs.Offsets
import PatternTree.Proofs.Openings
import PatternTree.Proofs.Operations
import PatternTree.Proofs.Orderly
import PatternTree.Proofs.PassRuns
import PatternTree.Proofs.Paths
import PatternTree.Proofs.Pending
import PatternTree.Proofs.Planting
import PatternTree.Proofs.Printing
import PatternTree.Proofs.Pruning
import PatternTree.Proofs.Reading
import PatternTree.Proofs.Refusals
import PatternTree.Proofs.Remains
import PatternTree.Proofs.Removals
import PatternTree.Proofs.Rests
import PatternTree.Proofs.Reuse
import PatternTree.Proofs.Rewiring
import PatternTree.Proofs.Roles
import PatternTree.Proofs.RoundTrip
import PatternTree.Proofs.Rows
import PatternTree.Proofs.Scanning
import PatternTree.Proofs.Seams
import PatternTree.Proofs.Settled
import PatternTree.Proofs.Shapes
import PatternTree.Proofs.Spans
import PatternTree.Proofs.Splices
import PatternTree.Proofs.Stages
import PatternTree.Proofs.Stripping
import PatternTree.Proofs.Tokens
import PatternTree.Proofs.Tours
import PatternTree.Proofs.Trail
import PatternTree.Proofs.Transforming
import PatternTree.Proofs.TreeEdits
import PatternTree.Proofs.Ungrouping
import PatternTree.Proofs.Visits
import PatternTree.Proofs.Writing
import PatternTree.Proofs.Yields
import PatternTree.Snippet.Basic
import PatternTree.Snippet.Line
import PatternTree.Snippet.Window
import PatternTree.Span
import PatternTree.Store
import PatternTree.Text.Blank
import PatternTree.Text.Bytes
import PatternTree.Text.CodePoints
import PatternTree.Text.DoubleWidth
import PatternTree.Text.Width
import PatternTree.Text.ZeroWidth
import PatternTree.Toml.Basic
import PatternTree.Toml.Reader
import PatternTree.Toml.Scalar
import PatternTree.Toml.Tables
import PatternTree.Tree.Basic
import PatternTree.Tree.Encoding
import PatternTree.Tree.Inflation
import PatternTree.Tree.Printer
import PatternTree.Walk.Basic
import PatternTree.Walk.Script
