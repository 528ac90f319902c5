import ModuleAudit.Audit.Attempt
import ModuleAudit.Audit.Event
import ModuleAudit.Audit.Report
import ModuleAudit.Audit.Run
import ModuleAudit.Audit.Stage
import ModuleAudit.Command.Fault
import ModuleAudit.Command.Grammar
import ModuleAudit.Command.Line
import ModuleAudit.Command.Run
import ModuleAudit.Command.Word
import ModuleAudit.Community.Level
import ModuleAudit.Community.Moving
import ModuleAudit.Community.Partition
import ModuleAudit.Community.Tally
import ModuleAudit.Community.Tuning
import ModuleAudit.Decimal.Binary
import ModuleAudit.Decimal.Reader
import ModuleAudit.Decimal.Shortest
import ModuleAudit.Decimal.Text
import ModuleAudit.Diagram.Attribute
import ModuleAudit.Diagram.Drawing
import ModuleAudit.Diagram.Layout
import ModuleAudit.Diagram.Markup
import ModuleAudit.Error
import ModuleAudit.Extraction.Basic
import ModuleAudit.Extraction.Clean
import ModuleAudit.Extraction.File
import ModuleAudit.Files.Path
import ModuleAudit.Files.System
import ModuleAudit.Glob
import ModuleAudit.Graph
import ModuleAudit.Graph.Cycles
import ModuleAudit.Graph.Indexed
import ModuleAudit.Graph.Reach
import ModuleAudit.Json.Cursor
import ModuleAudit.Json.Document
import ModuleAudit.Json.Fault
import ModuleAudit.Json.Number
import ModuleAudit.Json.Printer
import ModuleAudit.Json.Quote
import ModuleAudit.Json.Reader
import ModuleAudit.Json.Record
import ModuleAudit.Json.Skip
import ModuleAudit.Json.Value
import ModuleAudit.Log
import ModuleAudit.Main
import ModuleAudit.Metric.Centrality
import ModuleAudit.Metric.Coupling
import ModuleAudit.Metric.Density
import ModuleAudit.Metric.Rating
import ModuleAudit.ModuleMap
import ModuleAudit.Render.Json
import ModuleAudit.Render.Style
import ModuleAudit.Render.Table
import ModuleAudit.Render.Terminal
import ModuleAudit.Settings.Basic
import ModuleAudit.Settings.Reader
import ModuleAudit.Settings.Search
import ModuleAudit.Text.Blank
import ModuleAudit.Text.CodeRange
import ModuleAudit.Text.Emoji
import ModuleAudit.Text.Hidden
import ModuleAudit.Text.Mark
import ModuleAudit.Text.Quoted
import ModuleAudit.Text.Width
import ModuleAudit.Toml.Quoted
import ModuleAudit.Toml.Reader
import ModuleAudit.Toml.Scalar
import ModuleAudit.Toml.Value
import ModuleAudit.Tree
import ModuleAudit.Weight
import ModuleAudit.Proofs.Audit.Completed
import ModuleAudit.Proofs.Audit.Course
import ModuleAudit.Proofs.Audit.Ending
import ModuleAudit.Proofs.Audit.Faithful
import ModuleAudit.Proofs.Audit.Resolution
import ModuleAudit.Proofs.Audit.Skipped
import ModuleAudit.Proofs.Audit.Unplaced
import ModuleAudit.Proofs.Command.Analysis
import ModuleAudit.Proofs.Community.Ascent
import ModuleAudit.Proofs.Community.Assigned
import ModuleAudit.Proofs.Community.Balance
import ModuleAudit.Proofs.Community.Contraction
import ModuleAudit.Proofs.Community.Extremes
import ModuleAudit.Proofs.Community.Finite
import ModuleAudit.Proofs.Community.Gain
import ModuleAudit.Proofs.Community.Labels
import ModuleAudit.Proofs.Community.Members
import ModuleAudit.Proofs.Community.Mergers
import ModuleAudit.Proofs.Community.Modularity
import ModuleAudit.Proofs.Community.Moving
import ModuleAudit.Proofs.Community.Numbering
import ModuleAudit.Proofs.Community.Reached
import ModuleAudit.Proofs.Community.Rounds
import ModuleAudit.Proofs.Community.Stored
import ModuleAudit.Proofs.Community.Surplus
import ModuleAudit.Proofs.Community.Tally
import ModuleAudit.Proofs.Diagram.Forest
import ModuleAudit.Proofs.Diagram.Notes
import ModuleAudit.Proofs.Diagram.Reading
import ModuleAudit.Proofs.Diagram.Run
import ModuleAudit.Proofs.Extraction.Again
import ModuleAudit.Proofs.Extraction.Clean
import ModuleAudit.Proofs.Extraction.Name
import ModuleAudit.Proofs.Extraction.Orphans
import ModuleAudit.Proofs.Files.System
import ModuleAudit.Proofs.Files.Write
import ModuleAudit.Proofs.Float.Arithmetic
import ModuleAudit.Proofs.Float.Operations
import ModuleAudit.Proofs.Float.Packing
import ModuleAudit.Proofs.Float.Rounding
import ModuleAudit.Proofs.Graph.Accounted
import ModuleAudit.Proofs.Graph.Basic
import ModuleAudit.Proofs.Graph.Components
import ModuleAudit.Proofs.Graph.Cycles
import ModuleAudit.Proofs.Graph.Degrees
import ModuleAudit.Proofs.Graph.Indexed
import ModuleAudit.Proofs.Graph.Ledger
import ModuleAudit.Proofs.Graph.Listing
import ModuleAudit.Proofs.Graph.Order
import ModuleAudit.Proofs.Graph.Queue
import ModuleAudit.Proofs.Graph.Search
import ModuleAudit.Proofs.Graph.Shortest
import ModuleAudit.Proofs.Graph.Trail
import ModuleAudit.Proofs.Graph.Unplaced
import ModuleAudit.Proofs.Json.Cursor
import ModuleAudit.Proofs.Json.Document
import ModuleAudit.Proofs.Json.Grammar
import ModuleAudit.Proofs.Json.Number
import ModuleAudit.Proofs.Json.Printer
import ModuleAudit.Proofs.Json.Quote
import ModuleAudit.Proofs.Json.Reader
import ModuleAudit.Proofs.Lists
import ModuleAudit.Proofs.Metric.Centrality
import ModuleAudit.Proofs.Metric.Coupling
import ModuleAudit.Proofs.Metric.Density
import ModuleAudit.Proofs.Metric.Shares
import ModuleAudit.Proofs.ModuleMap
import ModuleAudit.Proofs.Pairs
import ModuleAudit.Proofs.Renaming.Cycles
import ModuleAudit.Proofs.Renaming.Graph
import ModuleAudit.Proofs.Renaming.Run
import ModuleAudit.Proofs.Renaming.Tree
import ModuleAudit.Proofs.Settings.Search
