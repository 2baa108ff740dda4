import ClassCollapse.Text.Blank
import ClassCollapse.Text.Bytes
import ClassCollapse.Text.Search
import ClassCollapse.Text.WordCharacter
import ClassCollapse.Table
import ClassCollapse.Digest.Xxh3
import ClassCollapse.Digest.Basic
import ClassCollapse.Random.ChaCha
import ClassCollapse.Random.Source
import ClassCollapse.CanonicalKey
import ClassCollapse.Markup.Piece
import ClassCollapse.Markup.ScannedClass
import ClassCollapse.Json.Escape
import ClassCollapse.Json.Value
import ClassCollapse.Json.Reader
import ClassCollapse.Json.Writer
import ClassCollapse.Text.Hex
import ClassCollapse.Style.UtilityTable
import ClassCollapse.Style.RuleBook
import ClassCollapse.Occurrence
import ClassCollapse.Naming.Prompt
import ClassCollapse.Naming.PercentEncoding
import ClassCollapse.Naming.Strategy
import ClassCollapse.Naming.Resolver
import ClassCollapse.Rewrite.Splice
import ClassCollapse.Rewrite.Rewriter
import ClassCollapse.Disk.Path
import ClassCollapse.Style.Placement
import ClassCollapse.Naming.Request
import ClassCollapse.Naming.Service
import ClassCollapse.Disk.Basic
import ClassCollapse.Disk.Layout
import ClassCollapse.Disk.Walk
import ClassCollapse.Config.Basic
import ClassCollapse.Cache.Manifest
import ClassCollapse.Cache.ChangeSet
import ClassCollapse.Cache.Basic
import ClassCollapse.Run.WriteBuffer
import ClassCollapse.Run.Report
import ClassCollapse.Run.Worklist
import ClassCollapse.Run.Engine
import ClassCollapse.Toml.Value
import ClassCollapse.Toml.Text
import ClassCollapse.Toml.Scalar
import ClassCollapse.Toml.Reader
import ClassCollapse.Config.Error
import ClassCollapse.Config.Reader
import ClassCollapse.Config.Paths
import ClassCollapse.Command.Arguments
import ClassCollapse.Command.Session
import ClassCollapse.Command.Project
import ClassCollapse.Command.Init
import ClassCollapse.Command.Run
import ClassCollapse.Command.Status
import ClassCollapse.Command.Execute
import ClassCollapse.Main
import ClassCollapse.Proofs.Text.Trim
import ClassCollapse.Proofs.Style.Declarations
import ClassCollapse.Proofs.Association
import ClassCollapse.Proofs.Naming.Uniqueness
import ClassCollapse.Proofs.OccurrenceIndex
import ClassCollapse.Proofs.Style.RuleBook
import ClassCollapse.Proofs.Markup.Located
import ClassCollapse.Proofs.Run.Worklist
import ClassCollapse.Proofs.Run.Tasks
import ClassCollapse.Proofs.Run.Visit
import ClassCollapse.Proofs.Run.Coherence
import ClassCollapse.Proofs.Run.Rewriting
import ClassCollapse.Proofs.Run.Styling
import ClassCollapse.Proofs.Disk.Frame
import ClassCollapse.Proofs.Run.Failure
import ClassCollapse.Proofs.Json.Escape
import ClassCollapse.Proofs.Json.Number
import ClassCollapse.Proofs.Json.RoundTrip
import ClassCollapse.Proofs.Cache.Manifest
import ClassCollapse.Proofs.Disk.Path
import ClassCollapse.Proofs.Disk.Steps
import ClassCollapse.Proofs.Disk.Tree
import ClassCollapse.Proofs.Disk.Locate
import ClassCollapse.Proofs.Disk.Saving
import ClassCollapse.Proofs.Disk.Discovery
import ClassCollapse.Proofs.Style.Placement
import ClassCollapse.Proofs.Run.Flushing
import ClassCollapse.Proofs.Cache.Basic
import ClassCollapse.Proofs.Run.Tracking
import ClassCollapse.Proofs.Run.Repetition
import ClassCollapse.Proofs.Naming.Spelling
import ClassCollapse.Proofs.Naming.NameTable
import ClassCollapse.Proofs.Markup.Edited
import ClassCollapse.Proofs.Rewrite.Rescanned
import ClassCollapse.Proofs.Cache.ChangeSet
import ClassCollapse.Proofs.Disk.Parents
import ClassCollapse.Proofs.Disk.Refusal
import ClassCollapse.Proofs.Run.Recording
import ClassCollapse.Proofs.Run.History
import ClassCollapse.Proofs.Naming.Budget
import ClassCollapse.Proofs.Text.Search
import ClassCollapse.Proofs.Style.Sheet
import ClassCollapse.Proofs.Disk.Sameness
import ClassCollapse.Proofs.Run.Buffering
import ClassCollapse.Proofs.Run.Sharing
import ClassCollapse.Proofs.Run.Keeping
import ClassCollapse.Proofs.Run.Pieces
import ClassCollapse.Proofs.Run.Restyling
import ClassCollapse.Proofs.Naming.Identifiers
import ClassCollapse.Proofs.Run.Passes
import ClassCollapse.Proofs.Disk.Keys
import ClassCollapse.Proofs.Run.Reporting
import ClassCollapse.Proofs.Style.Blocks
import ClassCollapse.Proofs.Run.Repeating
import ClassCollapse.Proofs.Run.PassedOver
import ClassCollapse.Proofs.Run.Schedule
import ClassCollapse.Proofs.Related
import ClassCollapse.Proofs.Run.Accounting
import ClassCollapse.Proofs.Text.Position
import ClassCollapse.Proofs.Rewrite.Applied
import ClassCollapse.Proofs.Markup.Pattern
import ClassCollapse.Proofs.Markup.Matches
import ClassCollapse.Proofs.Style.Generation
import ClassCollapse.Proofs.Style.Compilation
import ClassCollapse.Proofs.Style.Inline
import ClassCollapse.Proofs.Style.Companion
import ClassCollapse.Proofs.Style.Comment
import ClassCollapse.Proofs.Style.Reading
import ClassCollapse.Proofs.Disk.Ordering
import ClassCollapse.Proofs.Disk.Links
import ClassCollapse.Proofs.Disk.Walking
import ClassCollapse.Proofs.Text.Hex
import ClassCollapse.Proofs.Digest
import ClassCollapse.Proofs.CanonicalKey
import ClassCollapse.Proofs.Disk.Lexical
import ClassCollapse.Proofs.Run.WriteBuffer
import ClassCollapse.Proofs.Naming.Search
import ClassCollapse.Proofs.Json.Compact
import ClassCollapse.Proofs.Naming.PercentEncoding
import ClassCollapse.Proofs.Naming.Request
